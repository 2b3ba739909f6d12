import HClient.Cookies.KvStore
import HClient.Cookies.Pairs
import HClient.Hsts.Store

/-!
# The keys of cookies over the byte seam

A key is the reversed domain, the name, the path and a flag behind one another, with a control
character between them. Neither a name nor the domain of an ordinary host has that character in
it, and a domain that does not end in a dot can be read off its reversal, so that a jar's keys
are told apart and a domain's stem is found on its own cookies only.
-/
namespace HClient.Cookies

open Effect CookieJar
open Hsts (pushLabels isAddressKey)

/-- A domain that its key determines: no separator is in it, and no dot is lost from its end. The
reversal leaves a domain with a colon as it is. -/
def PlainDomain (domain : Text) : Prop :=
  KvStore.separator ∉ domain ∧ (':' ∈ domain ∨ domain.getLast? ≠ some '.')

instance (domain : Text) : Decidable (PlainDomain domain) :=
  inferInstanceAs (Decidable (_ ∧ _))

namespace KvStore

theorem mem_pushLabels {c : Char} {labels : List Text} (member : c ∈ pushLabels labels) :
    c = '.' ∨ ∃ l ∈ labels, c ∈ l := by
  have from_ : ∀ out : Text,
      c ∈ labels.foldl (fun out label => (if out ≠ [] then out ++ ['.'] else out) ++ label) out →
        c ∈ out ∨ c = '.' ∨ ∃ l ∈ labels, c ∈ l := by
    clear member
    induction labels with
    | nil => exact fun out there => .inl there
    | cons label labels ih =>
        intro out there
        rw [List.foldl_cons] at there
        rcases ih _ there with early | dot | ⟨l, later, inside⟩
        · rcases List.mem_append.mp early with front | here
          · split at front
            · rcases List.mem_append.mp front with front | dot
              · exact .inl front
              · exact .inr (.inl (List.mem_singleton.mp dot))
            · exact .inl front
          · exact .inr (.inr ⟨label, List.mem_cons_self, here⟩)
        · exact .inr (.inl dot)
        · exact .inr (.inr ⟨l, List.mem_cons_of_mem _ later, inside⟩)
  rcases from_ [] member with empty | rest
  · cases empty
  · exact rest

/-- The reversal brings no characters but dots. -/
theorem mem_of_mem_reverseLabels {c : Char} {domain : Text} (other : c ≠ '.')
    (member : c ∈ reverseLabels domain) : c ∈ domain := by
  unfold reverseLabels Hsts.reverseLabels at member
  split at member
  · exact member
  · rcases mem_pushLabels member with dot | ⟨l, label, inside⟩
    · exact absurd dot other
    · rw [← Hsts.intercalate_labels domain]
      exact (Hsts.mem_intercalate other).mpr ⟨l, List.mem_reverse.mp label, inside⟩

theorem reverseLabels_of_colon {domain : Text} (colon : ':' ∈ domain) :
    reverseLabels domain = domain := by
  have address : isAddressKey domain = true := by
    rw [isAddressKey, List.contains_iff_mem.mpr colon]
    rfl
  exact if_pos address

theorem reverseLabels_inj {a b : Text} (plain : PlainDomain a) (plain' : PlainDomain b)
    (same : reverseLabels a = reverseLabels b) : a = b := by
  by_cases colon : ':' ∈ a
  · rw [reverseLabels_of_colon colon] at same
    have colon' : ':' ∈ b := mem_of_mem_reverseLabels (by decide) (same ▸ colon)
    rwa [reverseLabels_of_colon colon'] at same
  · have colon' : ':' ∉ b := by
      intro there
      rw [reverseLabels_of_colon there] at same
      exact colon (mem_of_mem_reverseLabels (by decide) (same ▸ there))
    exact Hsts.reverseLabels_inj (plain.2.resolve_left colon) (plain'.2.resolve_left colon') same

theorem separator_not_mem_reverseLabels {domain : Text} (plain : PlainDomain domain) :
    separator ∉ reverseLabels domain :=
  fun member => plain.1 (mem_of_mem_reverseLabels (by decide) member)

/-- What stands before the first separator, and what behind it. -/
theorem append_separator_inj {a b x y : Text} (apart : separator ∉ a) (apart' : separator ∉ b)
    (same : a ++ separator :: x = b ++ separator :: y) : a = b ∧ x = y := by
  induction a generalizing b with
  | nil =>
      cases b with
      | nil => exact ⟨rfl, (List.cons.inj same).2⟩
      | cons d b =>
          have first := (List.cons.inj same).1
          exact absurd (first ▸ List.mem_cons_self) apart'
  | cons c a ih =>
      cases b with
      | nil =>
          have first := (List.cons.inj same).1
          exact absurd (first ▸ List.mem_cons_self) apart
      | cons d b =>
          obtain ⟨rfl, rest⟩ := List.cons.inj same
          obtain ⟨rfl, tails⟩ := ih (fun there => apart (List.mem_cons_of_mem _ there))
            (fun there => apart' (List.mem_cons_of_mem _ there)) rest
          exact ⟨rfl, tails⟩

/-- A key whose parts can be told apart. -/
structure PlainKey (key : CookieKey) : Prop where
  domain : PlainDomain key.domain
  name : separator ∉ key.name

theorem keyFor_eq (key : CookieKey) : keyFor key = reverseLabels key.domain ++ separator ::
    (key.name ++ separator :: (key.path ++ [separator, if key.hostOnly then '1' else '0'])) := by
  simp [keyFor, prefixFor]

theorem keyFor_inj {k k' : CookieKey} (plain : PlainKey k) (plain' : PlainKey k')
    (same : keyFor k = keyFor k') : k = k' := by
  rw [keyFor_eq, keyFor_eq] at same
  obtain ⟨domains, rest⟩ := append_separator_inj (separator_not_mem_reverseLabels plain.domain)
    (separator_not_mem_reverseLabels plain'.domain) same
  obtain ⟨names, ends⟩ := append_separator_inj plain.name plain'.name rest
  obtain ⟨paths, flags⟩ := List.append_inj' ends rfl
  have hostOnly : k.hostOnly = k'.hostOnly := by
    revert flags
    cases k.hostOnly <;> cases k'.hostOnly <;> decide
  cases k
  cases k'
  obtain rfl := reverseLabels_inj plain.domain plain'.domain domains
  obtain rfl : _ = _ := names
  obtain rfl : _ = _ := paths
  obtain rfl : _ = _ := hostOnly
  rfl

/-- A domain's stem stands before the keys of that domain, and before no other. -/
theorem prefixFor_prefix_iff {domain : Text} {key : CookieKey} (plain : PlainDomain domain)
    (plain' : PlainDomain key.domain) : prefixFor domain <+: keyFor key ↔ key.domain = domain := by
  constructor
  · intro stem
    obtain ⟨rest, same⟩ := stem
    rw [keyFor_eq, prefixFor, List.append_assoc, List.singleton_append] at same
    obtain ⟨domains, -⟩ := append_separator_inj (separator_not_mem_reverseLabels plain)
      (separator_not_mem_reverseLabels plain') same
    exact (reverseLabels_inj plain plain' domains).symm
  · rintro rfl
    rw [keyFor_eq, prefixFor]
    exact ⟨_, by rw [List.append_assoc, List.singleton_append]⟩

end KvStore

/-! ## What a jar holds -/

open KvStore (PlainKey separator)

/-- The host of a request that no cookie's domain loses a dot of. -/
def PlainHost (host : Text) : Prop := separator ∉ host ∧ host.getLast? ≠ some '.'

instance (host : Text) : Decidable (PlainHost host) := inferInstanceAs (Decidable (_ ∧ _))

theorem getLast?_of_suffix {s t : Text} (suffix : t <:+ s) (nodot : s.getLast? ≠ some '.') :
    t.getLast? ≠ some '.' := by
  obtain ⟨front, rfl⟩ := suffix
  intro dot
  rw [List.getLast?_append, dot] at nodot
  exact nodot rfl

theorem PlainHost.plain {host domain : Text} (plain : PlainHost host) (suffix : domain <:+ host) :
    PlainDomain domain :=
  ⟨fun member => plain.1 (suffix.subset member), .inr (getLast?_of_suffix suffix plain.2)⟩

theorem separator_not_mem_of_noControl {s : Text} {more : List UInt8}
    (noControl : (utf8Bytes s ++ more).any isCtl = false) : separator ∉ s := by
  intro member
  have byte : (1 : UInt8) ∈ utf8Bytes s :=
    List.mem_flatMap.mpr ⟨separator, member, by decide⟩
  exact List.any_eq_false.mp noControl 1 (List.mem_append_left _ byte) (by decide)

theorem plainKey_of_prepare {jar : CookieJar} {uri : Uri} {setCookie : HeaderValue}
    {now : SystemTime} {c : Cookie} (accepted : jar.prepare uri setCookie now = .ok c)
    (plain : ∀ host ∈ canonicalHost uri, PlainHost host) : PlainKey (CookieKey.of c) := by
  have noControl := (prepare_legible accepted).noControl
  obtain ⟨host, canonical, scope⟩ := (prepare_ok accepted).1.host
  have suffix : c.domain <:+ host := by
    rcases scope with ⟨-, same⟩ | ⟨-, -, same | ⟨⟨labels, covered⟩, -⟩⟩
    · exact same ▸ List.suffix_refl _
    · exact same ▸ List.suffix_refl _
    · exact ⟨labels ++ ['.'], by rw [covered]; simp⟩
  exact ⟨(plain host canonical).plain suffix, separator_not_mem_of_noControl noControl⟩

/-- The domain of a record as the jar takes it. -/
def CookieRecord.scope (record : CookieRecord) : Text :=
  ((Text.stripPrefix ['.'] record.domain).getD record.domain).toAsciiLowercase

theorem readRecord_domain {jar : CookieJar} {record : CookieRecord} {now : SystemTime} {c : Cookie}
    (taken : jar.readRecord record now = .ok (some c)) : c.domain = record.scope := by
  unfold readRecord at taken
  iterate 6 obtain ⟨-, taken⟩ := ok_of_check taken
  split at taken
  · split at taken <;> cases taken
  iterate 2 obtain ⟨-, taken⟩ := ok_of_check taken
  simp only at taken
  split at taken
  all_goals
    split at taken
    · cases taken
    · cases taken
      rfl

theorem stripDot_suffix (domain : Text) :
    (Text.stripPrefix ['.'] domain).getD domain <:+ domain := by
  unfold Text.stripPrefix
  split
  · exact List.drop_suffix _ _
  · exact List.suffix_refl _

theorem plain_scope {record : CookieRecord} (plain : PlainDomain record.domain) :
    PlainDomain record.scope := by
  have suffix := stripDot_suffix record.domain
  have colonKept : ':' ∈ record.domain →
      ':' ∈ (Text.stripPrefix ['.'] record.domain).getD record.domain := by
    intro colon
    unfold Text.stripPrefix
    split
    next dotted =>
      obtain ⟨rest, same⟩ := List.isPrefixOf_iff_prefix.mp dotted
      rw [← same] at colon ⊢
      simpa using colon
    · exact colon
  unfold CookieRecord.scope Text.toAsciiLowercase
  generalize (Text.stripPrefix ['.'] record.domain).getD record.domain = s at suffix colonKept
  refine ⟨fun member => ?_, plain.2.imp (fun colon => ?_) fun nodot => ?_⟩
  · obtain ⟨d, there, lower⟩ := List.mem_map.mp member
    rw [(Text.toLower_eq_iff (by decide)).mp lower] at there
    exact plain.1 (suffix.subset there)
  · exact List.mem_map.mpr ⟨':', colonKept colon, by decide⟩
  · rw [List.getLast?_map]
    intro dot
    obtain ⟨d, last, lower⟩ := Option.map_eq_some_iff.mp dot
    rw [(Text.toLower_eq_iff (by decide)).mp lower] at last
    exact getLast?_of_suffix suffix nodot last

theorem plainKey_of_readRecord {jar : CookieJar} {record : CookieRecord} {now : SystemTime}
    {c : Cookie} (taken : jar.readRecord record now = .ok (some c))
    (plain : PlainDomain record.domain) : PlainKey (CookieKey.of c) := by
  obtain ⟨name, -, noControl⟩ := readRecord_ok taken
  refine ⟨?_, ?_⟩
  · change PlainDomain c.domain
    rw [readRecord_domain taken]
    exact plain_scope plain
  · change separator ∉ c.name
    rw [name]
    exact separator_not_mem_of_noControl noControl

/-- Work whose host or record brings no domain that the reversal blurs. -/
def JarWork.Plain : JarWork → Prop
  | .call (.store uri _ _) | .call (.storeResponse uri _ _) =>
      ∀ host ∈ canonicalHost uri, PlainHost host
  | .call (.cookieHeader ..) => True
  | .restore record _ => PlainDomain record.domain

instance : (work : JarWork) → Decidable work.Plain
  | .call (.store uri _ _) | .call (.storeResponse uri _ _) =>
      inferInstanceAs (Decidable (∀ host ∈ canonicalHost uri, PlainHost host))
  | .call (.cookieHeader ..) => .isTrue trivial
  | .restore record _ => inferInstanceAs (Decidable (PlainDomain record.domain))

/-- The cookie's key has parts that can be told apart. -/
def PlainCookie (c : Cookie) : Prop := PlainKey (CookieKey.of c)

theorem PlainCookie.same (c d : Cookie) (same : SameCookie c d) (plain : PlainCookie d) :
    PlainCookie c := by
  obtain ⟨domain, name⟩ := plain
  refine ⟨?_, ?_⟩
  · change PlainDomain c.domain
    rw [same.domain]
    exact domain
  · change separator ∉ c.name
    rw [same.name]
    exact name

theorem JarWork.Plain.putsOnly {jar : CookieJar} {work : JarWork} (plain : work.Plain) :
    (work.body jar).Within (PutsOnly PlainCookie) fun _ => True := by
  cases work with
  | call asked =>
      refine (asked.body_putsOnly jar).mono ?_ fun _ _ => trivial
      intro op puts
      cases op with
      | put cookie now =>
          obtain ⟨response, setCookie, time, accepted, offers, prepared, same⟩ := puts
          refine PlainCookie.same _ _ same (plainKey_of_prepare prepared ?_)
          cases offers with
          | store => exact plain
          | storeResponse => exact plain
      | _ => trivial
  | restore record now =>
      simp only [JarWork.body, CookieJar.restore]
      cases taken : jar.readRecord record now with
      | error e => trivial
      | ok kept =>
        cases kept with
        | none => trivial
        | some cookie =>
            exact (insertAs_putsOnly PlainCookie.same
              (plainKey_of_readRecord taken plain)).ignore.ignore

section Runs
variable {ι : Type} [DecidableEq ι] {jar jar' : CookieJar} {capacity capacity' : Capacity}

/-- The step starts plain work only. -/
def StartsPlain (_ : WorkPool ι) : Label ι JarWork → Prop
  | .start _ work => work.Plain
  | .advance _ => True

instance (s : WorkPool ι) : (l : Label ι JarWork) → Decidable (StartsPlain s l)
  | .start _ work => inferInstanceAs (Decidable work.Plain)
  | .advance _ => .isTrue trivial

theorem plain_of_run {s : WorkPool ι} {ls : List (Label ι JarWork)}
    (starts : (workSystem jar capacity).Always StartsPlain idleJar ls)
    (reached : (workSystem jar capacity).run idleJar ls = some s) {c : Cookie}
    (held : s.shared.store.Holds c) : PlainCookie c :=
  held_run PlainCookie.same (fun _ _ _ plain => JarWork.Plain.putsOnly plain) starts reached c held

/-- Cookies of jars that only plain work was done on, in any interleaving, have one key in the
byte store only if they have one key, and the stem of a plain domain stands before the keys of
its own cookies and before no other. -/
theorem keyFor_tells_apart {s t : WorkPool ι} {ls ms : List (Label ι JarWork)}
    (starts : (workSystem jar capacity).Always StartsPlain idleJar ls)
    (reached : (workSystem jar capacity).run idleJar ls = some s)
    (starts' : (workSystem jar' capacity').Always StartsPlain idleJar ms)
    (reached' : (workSystem jar' capacity').run idleJar ms = some t) {c d : Cookie}
    (held : s.shared.store.Holds c) (held' : t.shared.store.Holds d) :
    (KvStore.keyFor (CookieKey.of c) = KvStore.keyFor (CookieKey.of d) →
      c.name = d.name ∧ c.domain = d.domain ∧ c.path = d.path ∧ c.hostOnly = d.hostOnly) ∧
    ∀ domain, PlainDomain domain →
      (KvStore.prefixFor domain <+: KvStore.keyFor (CookieKey.of c) ↔ c.domain = domain) := by
  have plain := plain_of_run starts reached held
  have plain' := plain_of_run starts' reached' held'
  refine ⟨fun same => ?_, fun domain fine => KvStore.prefixFor_prefix_iff fine plain.domain⟩
  have keys := KvStore.keyFor_inj plain plain' same
  exact ⟨congrArg CookieKey.name keys, congrArg CookieKey.domain keys,
    congrArg CookieKey.path keys, congrArg CookieKey.hostOnly keys⟩

end Runs

/-- A record of this domain that is good for a minute. -/
def savedUnder (domain : String) : CookieRecord :=
  ⟨"sid".toList, "abc".toList, domain.toList, ['/'], .fromUnix 60, .unixEpoch, .unixEpoch, true,
    false, false, none⟩

/-- Two records come back, one after the other. -/
def bothRestored (domain domain' : String) : List (Label Nat JarWork) :=
  [.start 0 (.restore (savedUnder domain) .unixEpoch), .advance 0, .advance 0, .advance 0,
    .start 1 (.restore (savedUnder domain') .unixEpoch), .advance 1, .advance 1, .advance 1]

/-- The cookie of such a record in the jar. -/
def heldUnder (domain : String) (seq : Nat) : Cookie :=
  ⟨"sid".toList, "abc".toList, domain.toList, ['/'], some (.fromUnix 60), .unixEpoch, .unixEpoch,
    seq, true, true, false, false, none⟩

theorem keyFor_tells_apart_two :
    KvStore.keyFor (CookieKey.of (heldUnder "example.com" 0)) ≠
        KvStore.keyFor (CookieKey.of (heldUnder "www.example.com" 1)) ∧
      ¬ KvStore.prefixFor "www.example.com".toList <+:
        KvStore.keyFor (CookieKey.of (heldUnder "example.com" 0)) := by
  let ls := bothRestored "example.com" "www.example.com"
  have starts : (workSystem ⟨.default, comList⟩ .default).Always StartsPlain idleJar ls := by
    decide +kernel
  have reached : (workSystem ⟨.default, comList⟩ .default).run idleJar ls =
      some ((workSystem ⟨.default, comList⟩ .default).after idleJar ls) :=
    System.run_eq_after (by decide +kernel)
  have held : ((workSystem ⟨.default, comList⟩ .default).after idleJar ls).shared.store.Holds
      (heldUnder "example.com" 0) := ⟨"example.com".toList, by decide +kernel⟩
  have held' : ((workSystem ⟨.default, comList⟩ .default).after idleJar ls).shared.store.Holds
      (heldUnder "www.example.com" 1) := ⟨"www.example.com".toList, by decide +kernel⟩
  have apart := keyFor_tells_apart starts reached starts reached held held'
  refine ⟨fun same => ?_, fun stem => ?_⟩
  · exact absurd (apart.1 same).2.1 (by decide)
  · exact absurd ((apart.2 _ (by decide)).mp stem) (by decide)

/-- A domain and the same with a dot behind it are two cookies of a jar with one key, and the
stem of the one stands before the key of the other. -/
theorem trailing_dot_shares_a_key :
    let s := (workSystem ⟨.default, comList⟩ .default).after idleJar
      (bothRestored "example.com" "example.com.")
    s.shared.store.Holds (heldUnder "example.com" 0) ∧
      s.shared.store.Holds (heldUnder "example.com." 1) ∧
      KvStore.keyFor (CookieKey.of (heldUnder "example.com" 0)) =
        KvStore.keyFor (CookieKey.of (heldUnder "example.com." 1)) ∧
      (heldUnder "example.com" 0).domain ≠ (heldUnder "example.com." 1).domain ∧
      KvStore.prefixFor "example.com".toList <+:
        KvStore.keyFor (CookieKey.of (heldUnder "example.com." 1)) := by
  refine ⟨⟨"example.com".toList, by decide +kernel⟩, ⟨"example.com.".toList, by decide +kernel⟩,
    by decide +kernel, by decide, by decide +kernel⟩

end HClient.Cookies
