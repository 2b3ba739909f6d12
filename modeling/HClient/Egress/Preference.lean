import HClient.Egress.Translate

/-!
# Where a target goes under the machine's settings

A setting names a proxy for a target when its key is the scheme's own or one for both. Which of
them carries the target depends on what the parser could read.
-/
namespace HClient.Egress

/-- A setting with a value, for the target's scheme alone. -/
def Own (t : Target) (setting : Text × Text) : Prop :=
  appliesTo setting.1 = some (some t.scheme) ∧ setting.2 ≠ []

/-- A setting with a value, for the target's scheme alone or for both. -/
def Named (t : Target) (setting : Text × Text) : Prop :=
  Own t setting ∨ (appliesTo setting.1 = some none ∧ setting.2 ≠ [])

/-- A setting that may carry the target: one for both schemes only where none is its own. -/
def Preferred (settings : List (Text × Text)) (t : Target) (setting : Text × Text) : Prop :=
  setting ∈ settings ∧ Named t setting ∧ ((∃ own ∈ settings, Own t own) → Own t setting)

def matchesPattern (pattern : Text) (t : Target) : Prop :=
  match Parse.bypass pattern with
  | .pattern p => matchesBypass p t.name t.port = true
  | .isLocal => t.name.contains '.' = false
  | .everything => True
  | .alreadyTrue => False
  | .unsupported _ => False

/-- A pattern takes the target past the proxies. The platforms' *exclude simple hostnames* is
one: it is what `<local>` says. -/
def Bypassed (bypass : List Text) (excludeSimple : Bool) (t : Target) : Prop :=
  (excludeSimple = true ∧ t.name.contains '.' = false) ∨
    ∃ pattern ∈ bypass, matchesPattern pattern t

/-- The target goes to the proxy that the setting names. -/
def Carries (sys : SystemProxies) (installed : Rules) (t : Target) (setting : Text × Text) : Prop :=
  ∃ entry proxy, SystemProxies.readEntry setting = some entry ∧ install sys entry = .ok proxy ∧
    installed.first t = some (Rule.ofProxy (proxy.mapProtocol HttpConnect.handshake))

section
variable {settings : List (Text × Text)} {bypass : List Text} {excludeSimple : Bool}
  {installed : Rules} {setting : Text × Text} {entry : ProxyEntry} {p : Proxy HttpConnect}
  {t : Target}

theorem value_of_readEntry (read : SystemProxies.readEntry setting = some entry) :
    setting.2 ≠ [] := by
  intro empty
  obtain ⟨applies, -, parsed⟩ := SystemProxies.readEntry_eq_some.mp read
  rw [empty] at parsed
  exact Parse.entry_nil _ _ _ parsed

theorem appliesTo_of_readEntry (read : SystemProxies.readEntry setting = some entry) :
    appliesTo setting.1 = some entry.appliesTo := by
  obtain ⟨applies, key, parsed⟩ := SystemProxies.readEntry_eq_some.mp read
  rw [key, Parse.entry_appliesTo parsed]

theorem own_iff_of_readEntry (read : SystemProxies.readEntry setting = some entry) :
    Own t setting ↔ entry.appliesTo = some t.scheme := by
  rw [Own, appliesTo_of_readEntry read, Option.some_inj]
  exact ⟨And.left, fun own => ⟨own, value_of_readEntry read⟩⟩

theorem named_iff_of_readEntry (read : SystemProxies.readEntry setting = some entry) :
    Named t setting ↔ entry.appliesTo = some t.scheme ∨ entry.appliesTo = none := by
  rw [Named, own_iff_of_readEntry read, appliesTo_of_readEntry read, Option.some_inj]
  constructor
  · rintro (own | ⟨both, -⟩)
    · exact .inl own
    · exact .inr both
  · rintro (own | both)
    · exact .inl own
    · exact .inr ⟨both, value_of_readEntry read⟩

/-- A target that nothing bypasses is served by every proxy for its scheme. -/
theorem serves_of_free (free : ¬ Bypassed bypass excludeSimple t)
    (done : install (SystemProxies.fromParts settings bypass excludeSimple) entry = .ok p) :
    p.serves t = true ↔ entry.appliesTo = some t.scheme ∨ entry.appliesTo = none := by
  obtain ⟨only, patterns, simple⟩ := install_ok done
  have dotted : ¬ (p.bypassLocal = true ∧ ¬ t.name.contains '.' = true) := by
    rw [simple, SystemProxies.bypassLocal_fromParts, Bool.not_eq_true]
    rintro ⟨exclude | ⟨pattern, mem, parsed⟩, bare⟩
    · exact free (.inl ⟨exclude, bare⟩)
    · apply free
      refine .inr ⟨pattern, mem, ?_⟩
      rw [matchesPattern, parsed]
      exact bare
  have unmatched : (p.bypass.any fun pattern => matchesBypass pattern t.name t.port) = false := by
    rw [List.any_eq_false, patterns]
    intro q mem_q hit
    obtain ⟨pattern, mem, parsed⟩ := SystemProxies.mem_bypass_fromParts.mp mem_q
    apply free
    refine .inr ⟨pattern, mem, ?_⟩
    rw [matchesPattern, parsed]
    exact hit
  unfold Proxy.serves
  rw [only, unmatched, if_neg dotted]
  cases applies : entry.appliesTo with
  | none => simp
  | some scheme =>
      by_cases same : scheme = t.scheme
      · simp [same]
      · simp [same]

theorem installAll_of_free (free : ¬ Bypassed bypass excludeSimple t) {list : List (Proxy HttpConnect)}
    (made : httpProxies (SystemProxies.fromParts settings bypass excludeSimple) = .ok list) :
    installAll (SystemProxies.fromParts settings bypass excludeSimple)
      (SystemProxies.fromParts settings bypass excludeSimple).entries = .ok list := by
  have everything :
      (SystemProxies.fromParts settings bypass excludeSimple).bypassEverything ≠ true := by
    intro all
    obtain ⟨pattern, mem, parsed⟩ := SystemProxies.bypassEverything_fromParts.mp all
    apply free
    refine .inr ⟨pattern, mem, ?_⟩
    rw [matchesPattern, parsed]
    trivial
  have rest := (httpProxies_ok made).2.2
  rwa [if_neg everything] at rest

/-- Where the strict translation succeeds, a target that no pattern matches goes to the proxy of
a setting that names one for it, its scheme's own before one for both, exactly when the parser
could read one of those settings: what it refuses is no refusal of the translation. -/
theorem rules_route_iff
    (strict : rules (SystemProxies.fromParts settings bypass excludeSimple) = .ok installed)
    (free : ¬ Bypassed bypass excludeSimple t) :
    (installed.route t ≠ .direct ∧ ∃ setting, Preferred settings t setting ∧
        Carries (SystemProxies.fromParts settings bypass excludeSimple) installed t setting) ↔
      ∃ setting, Preferred settings t setting ∧
        (SystemProxies.readEntry setting).isSome = true := by
  constructor
  · rintro ⟨-, setting, preferred, entry, proxy, read, -, -⟩
    refine ⟨setting, preferred, ?_⟩
    rw [read]
    rfl
  · rintro ⟨setting, ⟨mem, named, own⟩, readable⟩
    obtain ⟨entry, read⟩ := Option.isSome_iff_exists.mp readable
    obtain ⟨list, made, rfl⟩ := rules_ok strict
    have done := installAll_of_free free made
    obtain ⟨p, mem_p, one⟩ := installed_of_entry done
      (SystemProxies.mem_entries_fromParts.mpr ⟨setting, mem, read⟩)
    have serves : p.serves t = true :=
      (serves_of_free free one).mpr ((named_iff_of_readEntry read).mp named)
    -- the rule found belongs to a setting that ranks no lower than this one
    obtain ⟨q, found⟩ : ∃ q, list.find? (fun p => p.serves t) = some q := by
      rw [← Option.isSome_iff_exists, List.find?_isSome]
      exact ⟨p, mem_p, serves⟩
    obtain ⟨entry', mem', two⟩ := entry_of_installed done (List.mem_of_find?_eq_some found)
    obtain ⟨setting', mem', read'⟩ := SystemProxies.mem_entries_fromParts.mp mem'
    have named' : entry'.appliesTo = some t.scheme ∨ entry'.appliesTo = none := by
      apply (serves_of_free free two).mp
      exact List.find?_some (p := fun p : Proxy HttpConnect => p.serves t) found
    have rank : q.only.isNone ≤ p.only.isNone :=
      Sort.find?_least (fun p : Proxy HttpConnect => p.only.isNone)
        (sorted_installed done SystemProxies.sorted_entries_fromParts) found mem_p serves
    rw [(install_ok one).1, (install_ok two).1] at rank
    have first : (rulesOf list).first t =
        some (Rule.ofProxy (q.mapProtocol HttpConnect.handshake)) := by
      rw [first_rulesOf, found]
      rfl
    refine ⟨?_, setting', ⟨mem', ?_, ?_⟩, entry', q, read', two, first⟩
    · rw [Ne, Rules.route_eq_direct, first]
      exact Option.some_ne_none _
    · exact (named_iff_of_readEntry read').mpr named'
    · intro some_own
      rw [own_iff_of_readEntry read']
      rcases named' with specific | both
      · exact specific
      · rw [both, (own_iff_of_readEntry read).mp (own some_own)] at rank
        rw [Option.isNone_none, Option.isNone_some] at rank
        exact absurd rank (by decide)

end

namespace Machine

def target : Target := ⟨"example.com".toList, 80, false⟩

def named : Text × Text := ("http".toList, "proxy.corp:8080".toList)

/-- A port no type has room for, which the parser refuses. -/
def unreadable : Text × Text := ("http".toList, "proxy.corp:99999".toList)

def entry : ProxyEntry := ⟨.http, "proxy.corp".toList, 8080, some .http, none, false⟩

def empty : SystemProxies := ⟨[], [], false, false, [], [], none⟩

theorem free : ¬ Bypassed [] false target := by
  simp [Bypassed]

theorem fromParts_singleton (setting : Text × Text) :
    SystemProxies.fromParts [setting] [] false =
      { empty.readSetting setting with
        entries := (empty.readSetting setting).entries.mergeSort SystemProxies.specificFirst } := by
  rw [SystemProxies.fromParts, List.mergeSort_singleton, List.mergeSort_nil]
  rfl

theorem strict_named : rules (SystemProxies.fromParts [named] [] false) =
    .ok (rulesOf [⟨HttpConnect.new, .tcp "proxy.corp".toList 8080, [], false, some .http,
      false⟩]) := by
  have read : empty.readSetting named = { empty with entries := [entry] } := by decide +kernel
  rw [fromParts_singleton, read, List.mergeSort_singleton]
  rfl

theorem strict_unreadable : rules (SystemProxies.fromParts [unreadable] [] false) =
    .ok (rulesOf []) := by
  have refused : empty.readSetting unreadable =
      { empty with ignored := ["http=proxy.corp:99999 (`99999` is not a port)".toList] } := by
    decide +kernel
  rw [fromParts_singleton, refused]
  simp only [empty, List.mergeSort_nil]
  rfl

theorem own_named : Own target named := ⟨by decide, by decide⟩

theorem own_unreadable : Own target unreadable := ⟨by decide, by decide⟩

end Machine

/-- A setting that cannot be read is no refusal, and the target goes directly. -/
theorem rules_route_direct : ∃ settings bypass excludeSimple t installed,
    rules (SystemProxies.fromParts settings bypass excludeSimple) = .ok installed ∧
      ¬ Bypassed bypass excludeSimple t ∧ (∃ setting ∈ settings, Named t setting) ∧
      installed.route t = .direct := by
  refine ⟨[Machine.unreadable], [], false, Machine.target, rulesOf [],
    Machine.strict_unreadable, Machine.free, ?_, rfl⟩
  exact ⟨Machine.unreadable, List.mem_singleton_self _, .inl Machine.own_unreadable⟩

theorem rules_route_named : ∃ installed,
    rules (SystemProxies.fromParts [Machine.named] [] false) = .ok installed ∧
      installed.route Machine.target ≠ .direct := by
  refine ⟨_, Machine.strict_named, ?_⟩
  have carried := (rules_route_iff Machine.strict_named Machine.free).mpr
    ⟨Machine.named, ⟨List.mem_singleton_self _, .inl Machine.own_named, fun _ => Machine.own_named⟩,
      by decide +kernel⟩
  exact carried.1

end HClient.Egress
