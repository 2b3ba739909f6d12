import HClient.Cache.Store
import HClient.Core.Cuts

/-!
# Which targets share a key

`Key::new` puts a target together from the parts of a URI. Two keys are one exactly where the
parts agree, but for a path that is left out in front of a query, which is not written as `/`.
-/
namespace HClient.Cache
open HClient.Text

/-- What holds of the parts of an `http::Uri`: a host holds no delimiter but the colons of an
address between brackets, and a path begins with a slash and ends before the query. -/
structure Target where
  secure : Bool
  authority : Authority
  pathAndQuery : PathAndQuery
  plain : ['/', '?'].Disjoint authority.host
  literal : (∃ address, ']' ∉ address ∧ authority.host = '[' :: (address ++ [']'])) ∨
    ':' ∉ authority.host ∧ authority.host.head? ≠ some '['
  slash : pathAndQuery.path = [] ∨ pathAndQuery.path.head? = some '/'
  clear : '?' ∉ pathAndQuery.path

namespace Target

def scheme (t : Target) : Scheme := if t.secure then .https else .http

/-- The absolute URI of these parts. -/
def uri (t : Target) : Uri := ⟨some t.scheme, some t.authority, some t.pathAndQuery⟩

def defaultPort (t : Target) : Nat := if t.secure then 443 else 80

/-- The port that is written, or the default one. -/
def port (t : Target) : Nat := t.authority.port.getD t.defaultPort

/-- The path, an empty one read as a slash. -/
def path (t : Target) : Text := if t.pathAndQuery.path = [] then ['/'] else t.pathAndQuery.path

/-- Two targets are one by RFC 9110: only the spelling of the host, of the port and of an empty
path may differ, and a userinfo. -/
structure Same (t u : Target) : Prop where
  secure : t.secure = u.secure
  host : eqIgnoreAsciiCase t.authority.host u.authority.host = true
  port : t.port = u.port
  path : t.path = u.path
  query : t.pathAndQuery.query = u.pathAndQuery.query

/-- There is a query, and one of the two leaves out the path in front of it. -/
def SpeltApart (t u : Target) : Prop :=
  t.pathAndQuery.query.isSome = true ∧ ¬ (t.pathAndQuery.path = [] ↔ u.pathAndQuery.path = [])

variable {t u : Target}

/-- The port as a key has it. -/
def writtenPort (t : Target) : Text :=
  if t.port = t.defaultPort then [] else ':' :: Nat.toDigits 10 t.port

/-- The target of the key. -/
def written (t : Target) : Text :=
  t.scheme.asStr ++ "://".toList ++ t.authority.host.toAsciiLowercase ++ t.writtenPort ++
    t.pathAndQuery.asStr

theorem key_new (t : Target) (method : Method) :
    Key.new method t.uri = some ⟨method, t.written⟩ := by
  obtain ⟨secure, ⟨userinfo, host, port⟩, pathAndQuery, _, _, _, _⟩ := t
  have http : toAsciiLowercase ['h', 't', 't', 'p'] = ['h', 't', 't', 'p'] := by decide
  have https : toAsciiLowercase ['h', 't', 't', 'p', 's'] = ['h', 't', 't', 'p', 's'] := by decide
  cases secure <;> cases port <;>
    simp [Key.new, uri, scheme, written, writtenPort, Target.port, defaultPort, http, https,
      Scheme.asStr]

/-! ## The parts can be told from the key -/

theorem writtenPort_eq_iff (secure : t.secure = u.secure) :
    t.writtenPort = u.writtenPort ↔ t.port = u.port := by
  have defaults : t.defaultPort = u.defaultPort := by rw [defaultPort, defaultPort, secure]
  constructor
  · intro same
    rw [writtenPort, writtenPort, defaults] at same
    by_cases default : t.port = u.defaultPort
    · rw [if_pos default] at same
      by_cases other : u.port = u.defaultPort
      · rw [default, other]
      · rw [if_neg other] at same
        cases same
    · rw [if_neg default] at same
      by_cases other : u.port = u.defaultPort
      · rw [if_pos other] at same
        cases same
      · rw [if_neg other, List.cons_inj_right] at same
        have read := congrArg (Nat.ofDigitChars 10 · 0) same
        simpa [Nat.ofDigitChars_ten_toDigits] using read
  · intro same
    rw [writtenPort, writtenPort, defaults, same]

theorem writtenPort_cases (t : Target) :
    t.writtenPort = [] ∨ t.writtenPort = ':' :: Nat.toDigits 10 t.port := by
  rw [writtenPort]
  split
  · exact .inl rfl
  · exact .inr rfl

theorem disjoint_writtenPort (t : Target) : ['/', '?'].Disjoint t.writtenPort := by
  intro c stop member
  rcases writtenPort_cases t with none | some
  · rw [none] at member
    cases member
  · rw [some] at member
    rcases List.mem_cons.mp member with rfl | digit
    · exact absurd stop (by decide)
    · have := Nat.isDigit_of_mem_toDigits (by decide) (Nat.le_refl 10) digit
      rcases List.mem_cons.mp stop with rfl | stop
      · cases this
      · obtain rfl := List.mem_singleton.mp stop
        cases this

theorem toLower_plain {d : Char} (other : d.isAlpha = false) {s : Text} :
    d ∈ s.toAsciiLowercase ↔ d ∈ s := by
  rw [toAsciiLowercase, List.mem_map]
  constructor
  · rintro ⟨c, member, same⟩
    exact (toLower_eq_iff other).mp same ▸ member
  · intro member
    exact ⟨d, member, (toLower_eq_iff other).mpr rfl⟩

theorem disjoint_toAsciiLowercase {stops s : Text} (plain : ∀ d ∈ stops, d.isAlpha = false) :
    stops.Disjoint s.toAsciiLowercase ↔ stops.Disjoint s := by
  constructor
  · intro free d stop member
    exact free stop ((toLower_plain (plain d stop)).mpr member)
  · intro free d stop member
    exact free stop ((toLower_plain (plain d stop)).mp member)

/-- The path and the query begin with one of their delimiters. -/
theorem asStr_begins (t : Target) :
    ∃ c ∈ ['/', '?'], ∃ rest, t.pathAndQuery.asStr = c :: rest := by
  unfold PathAndQuery.asStr
  cases t.pathAndQuery.query with
  | none =>
      by_cases empty : t.pathAndQuery.path = []
      · exact ⟨'/', by simp, [], by simp [empty]⟩
      · have slash := t.slash.resolve_left empty
        cases path : t.pathAndQuery.path with
        | nil => exact absurd path empty
        | cons c rest =>
            rw [path] at slash
            exact ⟨c, by simp [Option.some.inj slash], rest, by simp⟩
  | some q =>
      by_cases empty : t.pathAndQuery.path = []
      · exact ⟨'?', by simp, q, by simp [empty]⟩
      · have slash := t.slash.resolve_left empty
        cases path : t.pathAndQuery.path with
        | nil => exact absurd path empty
        | cons c rest =>
            rw [path] at slash
            exact ⟨c, by simp [Option.some.inj slash], rest ++ '?' :: q, by simp⟩

theorem upTo_asStr {q : Text} (query : t.pathAndQuery.query = some q) :
    upTo ['?'] t.pathAndQuery.asStr = t.pathAndQuery.path ∧
      onward ['?'] t.pathAndQuery.asStr = '?' :: q := by
  have free : ['?'].Disjoint t.pathAndQuery.path := List.singleton_disjoint.mpr t.clear
  rw [PathAndQuery.asStr, query]
  exact ⟨upTo_stop free (List.mem_singleton_self _) q,
    onward_stop free (List.mem_singleton_self _) q⟩

theorem asStr_of_none (query : t.pathAndQuery.query = none) : t.pathAndQuery.asStr = t.path := by
  rw [PathAndQuery.asStr, query]
  rfl

theorem path_clear (t : Target) : '?' ∉ t.path := by
  rw [Target.path]
  split
  · decide
  · exact t.clear

/-- The path and the query are told from what is written of them, as they are spelt. -/
theorem asStr_eq_iff : t.pathAndQuery.asStr = u.pathAndQuery.asStr ↔
    t.path = u.path ∧ t.pathAndQuery.query = u.pathAndQuery.query ∧ ¬ SpeltApart t u := by
  have found : ∀ {v : Target} {q : Text}, v.pathAndQuery.query = some q →
      '?' ∈ v.pathAndQuery.asStr := by
    intro v q query
    rw [← upTo_append_onward ['?'] v.pathAndQuery.asStr, (upTo_asStr query).2]
    simp
  cases left : t.pathAndQuery.query with
  | none =>
      rw [asStr_of_none left]
      cases right : u.pathAndQuery.query with
      | none =>
          rw [asStr_of_none right]
          simp [SpeltApart, left]
      | some q =>
          refine iff_of_false (fun same => path_clear t ?_) (fun all => nomatch all.2.1)
          rw [same]
          exact found right
  | some p =>
      cases right : u.pathAndQuery.query with
      | none =>
          rw [asStr_of_none right]
          refine iff_of_false (fun same => path_clear u ?_) (fun all => nomatch all.2.1)
          rw [← same]
          exact found left
      | some q =>
          have apart : SpeltApart t u ↔ ¬ (t.pathAndQuery.path = [] ↔ u.pathAndQuery.path = []) := by
            simp [SpeltApart, left]
          constructor
          · intro same
            have paths := congrArg (upTo ['?']) same
            have queries := congrArg (onward ['?']) same
            rw [(upTo_asStr left).1, (upTo_asStr right).1] at paths
            rw [(upTo_asStr left).2, (upTo_asStr right).2, List.cons_inj_right] at queries
            rw [apart, Target.path, Target.path, paths, queries]
            simp
          · rintro ⟨paths, queries, together⟩
            rw [apart, not_not] at together
            have raw : t.pathAndQuery.path = u.pathAndQuery.path := by
              by_cases empty : t.pathAndQuery.path = []
              · rw [empty, together.mp empty]
              · rwa [Target.path, Target.path, if_neg empty,
                  if_neg fun none => empty (together.mpr none)] at paths
            rw [PathAndQuery.asStr, PathAndQuery.asStr, left, right, raw, Option.some.inj queries]

/-- The host and the port are told from what is written of them. -/
theorem host_eq_iff (secure : t.secure = u.secure) :
    t.authority.host.toAsciiLowercase ++ t.writtenPort =
        u.authority.host.toAsciiLowercase ++ u.writtenPort ↔
      eqIgnoreAsciiCase t.authority.host u.authority.host = true ∧ t.port = u.port := by
  have begins : ∀ v : Target, upTo [':'] v.writtenPort = [] := by
    intro v
    rcases writtenPort_cases v with none | some
    · rw [none]
      rfl
    · rw [some]
      exact upTo_cons (List.mem_singleton_self _) _
  have bare : ∀ v : Target, ':' ∉ v.authority.host →
      upTo [':'] (v.authority.host.toAsciiLowercase ++ v.writtenPort) =
        v.authority.host.toAsciiLowercase := by
    intro v plain
    have free : [':'].Disjoint v.authority.host.toAsciiLowercase :=
      List.singleton_disjoint.mpr fun member => plain ((toLower_plain (by decide)).mp member)
    rw [upTo_append free, begins, List.append_nil]
  have literal : ∀ (v : Target) (address : Text), ']' ∉ address →
      v.authority.host = '[' :: (address ++ [']']) →
        v.authority.host.toAsciiLowercase = upTo [']']
          (v.authority.host.toAsciiLowercase ++ v.writtenPort) ++ [']'] := by
    intro v address plain host
    have free : [']'].Disjoint ('[' :: address.toAsciiLowercase) := by
      refine List.singleton_disjoint.mpr fun member => ?_
      rcases List.mem_cons.mp member with same | member
      · cases same
      · exact plain ((toLower_plain (by decide)).mp member)
    have lower : v.authority.host.toAsciiLowercase =
        ('[' :: address.toAsciiLowercase) ++ [']'] := by
      rw [host]
      simp [toAsciiLowercase]
    rw [lower, List.append_assoc, List.singleton_append,
      upTo_stop free (List.mem_singleton_self _)]
  have mixed : ∀ v w : Target, (∃ address, ']' ∉ address ∧
      v.authority.host = '[' :: (address ++ [']'])) → w.authority.host.head? ≠ some '[' →
        v.authority.host.toAsciiLowercase ++ v.writtenPort ≠
          w.authority.host.toAsciiLowercase ++ w.writtenPort := by
    rintro v w ⟨address, -, host⟩ other same
    have first := congrArg List.head? same
    rw [host] at first
    cases there : w.authority.host with
    | nil =>
        rw [there] at first
        rcases writtenPort_cases w with none | some
        · rw [none] at first
          cases first
        · rw [some] at first
          cases first
    | cons c rest =>
        rw [there] at first other
        have bracket := (Option.some.inj first).symm
        exact other (congrArg some ((toLower_eq_iff (by decide)).mp bracket))
  constructor
  · intro same
    have hosts : t.authority.host.toAsciiLowercase = u.authority.host.toAsciiLowercase := by
      rcases t.literal with ⟨a, plain, bracketed⟩ | ⟨plain, open_⟩
      · rcases u.literal with ⟨b, plain', bracketed'⟩ | ⟨plain', open'⟩
        · rw [literal t a plain bracketed, literal u b plain' bracketed', same]
        · exact absurd same (mixed t u ⟨a, plain, bracketed⟩ open')
      · rcases u.literal with ⟨b, plain', bracketed'⟩ | ⟨plain', open'⟩
        · exact absurd same.symm (mixed u t ⟨b, plain', bracketed'⟩ open_)
        · rw [← bare t plain, ← bare u plain', same]
    rw [hosts, List.append_cancel_left_eq] at same
    exact ⟨(eqIgnoreAsciiCase_iff ..).mpr hosts, (writtenPort_eq_iff secure).mp same⟩
  · rintro ⟨hosts, ports⟩
    rw [(eqIgnoreAsciiCase_iff ..).mp hosts, (writtenPort_eq_iff secure).mpr ports]

theorem written_eq_iff : t.written = u.written ↔ Same t u ∧ ¬ SpeltApart t u := by
  have front : ∀ v : Target, ['/', '?'].Disjoint
      (v.authority.host.toAsciiLowercase ++ v.writtenPort) := by
    intro v
    refine List.disjoint_append_right.mpr ⟨?_, disjoint_writtenPort v⟩
    exact (disjoint_toAsciiLowercase (by simp)).mpr v.plain
  constructor
  · intro same
    have secure : t.secure = u.secure := by
      unfold written scheme at same
      cases left : t.secure <;> cases right : u.secure <;> simp [left, right, Scheme.asStr] at same ⊢
    have schemes : t.scheme = u.scheme := by rw [scheme, scheme, secure]
    rw [written, written, schemes] at same
    simp only [List.append_assoc, List.append_cancel_left_eq] at same
    rw [← List.append_assoc, ← List.append_assoc] at same
    obtain ⟨c, stop, rest, first⟩ := asStr_begins t
    obtain ⟨d, stop', rest', first'⟩ := asStr_begins u
    have hosts := congrArg (upTo ['/', '?']) same
    rw [first, first', upTo_stop (front t) stop, upTo_stop (front u) stop'] at hosts
    rw [hosts, List.append_cancel_left_eq] at same
    obtain ⟨host, port⟩ := (host_eq_iff secure).mp hosts
    obtain ⟨path, query, together⟩ := asStr_eq_iff.mp same
    exact ⟨⟨secure, host, port, path, query⟩, together⟩
  · rintro ⟨same, together⟩
    have hosts := (host_eq_iff same.secure).mpr ⟨same.host, same.port⟩
    have tails := asStr_eq_iff.mpr ⟨same.path, same.query, together⟩
    have schemes : t.scheme = u.scheme := by rw [scheme, scheme, same.secure]
    rw [written, written, schemes, tails]
    simp only [List.append_assoc, List.append_cancel_left_eq]
    rw [← List.append_assoc, ← List.append_assoc, hosts]

end Target

/-- Keys are equal where the methods and the targets are, but for two spellings of the empty
path in front of a query. -/
theorem key_eq_iff (m n : Method) (t u : Target) :
    ((Key.new m t.uri = Key.new n u.uri) ↔ (m = n ∧ Target.Same t u)) ↔
      ¬ (m = n ∧ Target.Same t u ∧ Target.SpeltApart t u) := by
  have keys : Key.new m t.uri = Key.new n u.uri ↔
      m = n ∧ Target.Same t u ∧ ¬ Target.SpeltApart t u := by
    rw [Target.key_new, Target.key_new, Option.some.injEq, Key.mk.injEq, Target.written_eq_iff]
  rw [keys]
  tauto

/-- `http://a?x=1` -/
def barePath : Target where
  secure := false
  authority := ⟨none, ['a'], none⟩
  pathAndQuery := ⟨[], some "x=1".toList⟩
  plain := by simp
  literal := .inr (by decide)
  slash := .inl rfl
  clear := by decide

/-- `http://a/?x=1` -/
def slashPath : Target where
  secure := false
  authority := ⟨none, ['a'], none⟩
  pathAndQuery := ⟨['/'], some "x=1".toList⟩
  plain := by simp
  literal := .inr (by decide)
  slash := .inr rfl
  clear := by decide

/-- One target has two keys. -/
theorem empty_path_splits_an_entry :
    Target.Same barePath slashPath ∧
      Key.new .get barePath.uri = some ⟨.get, "http://a?x=1".toList⟩ ∧
      Key.new .get slashPath.uri = some ⟨.get, "http://a/?x=1".toList⟩ ∧
      Key.new .get barePath.uri ≠ Key.new .get slashPath.uri := by
  refine ⟨⟨rfl, by decide, by decide, by decide, rfl⟩, by decide, by decide, by decide⟩

end HClient.Cache
