import HClient.Egress.System

/-!
# The settings as rules

The strict translation refuses what it cannot state and installs the rest; the lenient one
installs what it can and hands the refusals back.
-/
namespace HClient.Egress

inductive SystemProxyRefused where
  | pacScript (url : Text)
  | unrepresentableBypass (pattern : Text)
  | mixedProtocols (kind : ProxyKind) (host : Text) (port : Nat)
  | unusableCredential (host : Text) (port : Nat)
  deriving DecidableEq, Repr

/-- The proxy of an entry, under the bypass the machine names. -/
def proxyOf (sys : SystemProxies) (protocol : HttpConnect) (entry : ProxyEntry) :
    Proxy HttpConnect :=
  { Proxy.new protocol entry.host entry.port with
    bypass := sys.bypass
    bypassLocal := sys.bypassLocal
    only := entry.appliesTo
    tls := entry.tls }

/-- The protocol with an entry's credentials, where a header can carry them. -/
def authenticated (entry : ProxyEntry) : Option HttpConnect :=
  match entry.credentials with
  | some c => HttpConnect.basicAuth c.user c.password
  | none => some HttpConnect.new

def install (sys : SystemProxies) (entry : ProxyEntry) :
    Except SystemProxyRefused (Proxy HttpConnect) :=
  if entry.kind ≠ .http then .error (.mixedProtocols entry.kind entry.host entry.port)
  else
    match authenticated entry with
    | none => .error (.unusableCredential entry.host entry.port)
    | some protocol => .ok (proxyOf sys protocol entry)

def installAll (sys : SystemProxies) :
    List ProxyEntry → Except SystemProxyRefused (List (Proxy HttpConnect))
  | [] => .ok []
  | entry :: rest =>
      match install sys entry with
      | .error e => .error e
      | .ok proxy => (installAll sys rest).map (proxy :: ·)

def httpProxies (sys : SystemProxies) : Except SystemProxyRefused (List (Proxy HttpConnect)) :=
  match sys.pac with
  | some pac => .error (.pacScript pac)
  | none =>
      match sys.unsupportedBypass.head? with
      | some u => .error (.unrepresentableBypass u.display)
      | none => if sys.bypassEverything then .ok [] else installAll sys sys.entries

def rulesOf (list : List (Proxy HttpConnect)) : Rules :=
  (list.map (Proxy.mapProtocol HttpConnect.handshake)).foldl Rules.push Rules.new

def rules (sys : SystemProxies) : Except SystemProxyRefused Rules :=
  (httpProxies sys).map rulesOf

/-- The lenient loop's step: a credential that cannot be sent is reported and the proxy kept. -/
def installLossy (sys : SystemProxies)
    (acc : List (Proxy HttpConnect) × List SystemProxyRefused) (entry : ProxyEntry) :
    List (Proxy HttpConnect) × List SystemProxyRefused :=
  if entry.kind ≠ .http then
    (acc.1, acc.2 ++ [.mixedProtocols entry.kind entry.host entry.port])
  else
    match authenticated entry with
    | some protocol => (acc.1 ++ [proxyOf sys protocol entry], acc.2)
    | none =>
        (acc.1 ++ [proxyOf sys HttpConnect.new entry],
          acc.2 ++ [.unusableCredential entry.host entry.port])

def httpProxiesLossy (sys : SystemProxies) :
    List (Proxy HttpConnect) × List SystemProxyRefused :=
  let dropped : List SystemProxyRefused := (sys.pac.map SystemProxyRefused.pacScript).toList ++
    sys.unsupportedBypass.map fun u => .unrepresentableBypass u.display
  if sys.bypassEverything then ([], dropped)
  else sys.entries.foldl (installLossy sys) ([], dropped)

section
variable {sys : SystemProxies} {entries : List ProxyEntry} {list : List (Proxy HttpConnect)}
  {entry : ProxyEntry} {p : Proxy HttpConnect} {t : Target}

theorem install_ok (done : install sys entry = .ok p) : p.only = entry.appliesTo ∧
    p.bypass = sys.bypass ∧ p.bypassLocal = sys.bypassLocal := by
  unfold install at done
  split at done
  · cases done
  · split at done
    · cases done
    · cases done
      exact ⟨rfl, rfl, rfl⟩

theorem installAll_cons (done : installAll sys (entry :: entries) = .ok list) :
    ∃ p rest, install sys entry = .ok p ∧ installAll sys entries = .ok rest ∧
      list = p :: rest := by
  unfold installAll at done
  cases first : install sys entry with
  | error e =>
      rw [first] at done
      cases done
  | ok p =>
      rw [first] at done
      cases remaining : installAll sys entries with
      | error e =>
          rw [remaining] at done
          cases done
      | ok rest =>
          rw [remaining] at done
          cases done
          exact ⟨p, rest, rfl, rfl, rfl⟩

theorem installed_of_entry (done : installAll sys entries = .ok list) (mem : entry ∈ entries) :
    ∃ p ∈ list, install sys entry = .ok p := by
  induction entries generalizing list with
  | nil => cases mem
  | cons first entries ih =>
      obtain ⟨p, rest, one, remaining, rfl⟩ := installAll_cons done
      rcases List.mem_cons.mp mem with rfl | later
      · exact ⟨p, List.mem_cons_self, one⟩
      · obtain ⟨q, mem_q, two⟩ := ih remaining later
        exact ⟨q, List.mem_cons_of_mem _ mem_q, two⟩

theorem entry_of_installed (done : installAll sys entries = .ok list) (mem : p ∈ list) :
    ∃ entry ∈ entries, install sys entry = .ok p := by
  induction entries generalizing list with
  | nil =>
      cases done
      cases mem
  | cons first entries ih =>
      obtain ⟨q, rest, one, remaining, rfl⟩ := installAll_cons done
      rcases List.mem_cons.mp mem with rfl | later
      · exact ⟨first, List.mem_cons_self, one⟩
      · obtain ⟨entry, mem_entry, two⟩ := ih remaining later
        exact ⟨entry, List.mem_cons_of_mem _ mem_entry, two⟩

theorem sorted_installed (done : installAll sys entries = .ok list)
    (sorted : entries.Pairwise fun a b => a.appliesTo.isNone ≤ b.appliesTo.isNone) :
    list.Pairwise fun a b => a.only.isNone ≤ b.only.isNone := by
  induction entries generalizing list with
  | nil =>
      cases done
      exact List.Pairwise.nil
  | cons first entries ih =>
      obtain ⟨p, rest, one, remaining, rfl⟩ := installAll_cons done
      obtain ⟨head, tail⟩ := List.pairwise_cons.mp sorted
      refine List.pairwise_cons.mpr ⟨?_, ih remaining tail⟩
      intro q mem_q
      obtain ⟨entry, mem_entry, two⟩ := entry_of_installed remaining mem_q
      rw [(install_ok one).1, (install_ok two).1]
      exact head entry mem_entry

theorem first_rulesOf (list : List (Proxy HttpConnect)) (t : Target) :
    (rulesOf list).first t = (list.find? fun p => p.serves t).map fun p =>
      Rule.ofProxy (p.mapProtocol HttpConnect.handshake) := by
  rw [rulesOf, Rules.first_pushed, List.find?_map, Option.map_map]
  rfl

theorem rules_ok {installed : Rules} (strict : rules sys = .ok installed) :
    ∃ list, httpProxies sys = .ok list ∧ installed = rulesOf list := by
  unfold rules at strict
  cases made : httpProxies sys with
  | error e =>
      rw [made] at strict
      cases strict
  | ok list =>
      rw [made] at strict
      cases strict
      exact ⟨list, rfl, rfl⟩

theorem httpProxies_ok (made : httpProxies sys = .ok list) :
    sys.pac = none ∧ sys.unsupportedBypass = [] ∧
      (if sys.bypassEverything then list = [] else installAll sys sys.entries = .ok list) := by
  unfold httpProxies at made
  cases pac : sys.pac with
  | some url =>
      rw [pac] at made
      cases made
  | none =>
      rw [pac] at made
      cases odd : sys.unsupportedBypass with
      | cons u rest =>
          rw [odd] at made
          cases made
      | nil =>
          rw [odd] at made
          dsimp only [List.head?_nil] at made
          cases everything : sys.bypassEverything with
          | true =>
              rw [everything] at made
              cases made
              simp
          | false =>
              rw [everything] at made
              exact ⟨rfl, rfl, made⟩

theorem foldl_installLossy (done : installAll sys entries = .ok list)
    (acc : List (Proxy HttpConnect) × List SystemProxyRefused) :
    entries.foldl (installLossy sys) acc = (acc.1 ++ list, acc.2) := by
  induction entries generalizing list acc with
  | nil =>
      cases done
      simp
  | cons first entries ih =>
      obtain ⟨p, rest, one, remaining, rfl⟩ := installAll_cons done
      have step : installLossy sys acc first = (acc.1 ++ [p], acc.2) := by
        unfold install at one
        unfold installLossy
        split at one
        · cases one
        · rename_i http
          rw [if_neg http]
          cases credential : authenticated first with
          | none =>
              rw [credential] at one
              cases one
          | some protocol =>
              rw [credential] at one
              cases one
              rfl
      rw [List.foldl_cons, step, ih remaining]
      simp

/-- Where the strict translation succeeds the lenient one installs the same and reports
nothing. -/
theorem httpProxiesLossy_of_strict (made : httpProxies sys = .ok list) :
    httpProxiesLossy sys = (list, []) := by
  obtain ⟨pac, odd, rest⟩ := httpProxies_ok made
  unfold httpProxiesLossy
  cases everything : sys.bypassEverything with
  | true =>
      rw [everything, if_pos rfl] at rest
      simp [pac, odd, rest]
  | false =>
      rw [everything] at rest
      rw [if_neg Bool.false_ne_true, foldl_installLossy rest]
      simp [pac, odd]

end
end HClient.Egress

/-!
## What the lenient translation reports

The strict translation and the lenient one agree exactly where the lenient one has nothing to
report, and its report names what it left out, in order and once each.
-/
namespace HClient.Egress

/-- What becomes of an entry: it is installed and not named, installed without its credential and
named, or left out and named. -/
inductive Handled (sys : SystemProxies) :
    ProxyEntry → Option (Proxy HttpConnect) → Option SystemProxyRefused → Prop
  | whole {entry : ProxyEntry} {p : Proxy HttpConnect} : install sys entry = .ok p →
      Handled sys entry (some p) none
  | bare {entry : ProxyEntry} : entry.kind = .http → authenticated entry = none →
      Handled sys entry (some (proxyOf sys HttpConnect.new entry))
        (some (.unusableCredential entry.host entry.port))
  | leftOut {entry : ProxyEntry} : entry.kind ≠ .http →
      Handled sys entry none (some (.mixedProtocols entry.kind entry.host entry.port))

/-- The entries as they are handled, one after the other. -/
inductive HandledAll (sys : SystemProxies) :
    List ProxyEntry → List (Proxy HttpConnect) → List SystemProxyRefused → Prop
  | nil : HandledAll sys [] [] []
  | cons {entry : ProxyEntry} {p : Option (Proxy HttpConnect)} {named : Option SystemProxyRefused}
      {entries : List ProxyEntry} {list : List (Proxy HttpConnect)}
      {report : List SystemProxyRefused} : Handled sys entry p named →
      HandledAll sys entries list report →
      HandledAll sys (entry :: entries) (p.toList ++ list) (named.toList ++ report)

/-- What is named before any entry: the script, and every pattern that no rule can state. -/
def unstated (sys : SystemProxies) : List SystemProxyRefused :=
  (sys.pac.map SystemProxyRefused.pacScript).toList ++
    sys.unsupportedBypass.map fun u => .unrepresentableBypass u.display

/-- A list and a report in which everything is installed or named, and nothing twice. -/
def Accounted (sys : SystemProxies) (list : List (Proxy HttpConnect))
    (report : List SystemProxyRefused) : Prop :=
  ∃ named, HandledAll sys sys.entries list named ∧ report = unstated sys ++ named

section
variable {sys : SystemProxies} {entry : ProxyEntry} {entries : List ProxyEntry}
  {list : List (Proxy HttpConnect)} {report : List SystemProxyRefused}

theorem installLossy_handled (sys : SystemProxies) (entry : ProxyEntry) :
    ∃ p named, Handled sys entry p named ∧ ∀ acc,
      installLossy sys acc entry = (acc.1 ++ p.toList, acc.2 ++ named.toList) := by
  by_cases http : entry.kind = .http
  · cases credential : authenticated entry with
    | some protocol =>
        refine ⟨_, none, .whole (p := proxyOf sys protocol entry) ?_, fun acc => ?_⟩
        · rw [install, if_neg (not_not_intro http), credential]
        · rw [installLossy, if_neg (not_not_intro http), credential, Option.toList_none,
            List.append_nil]
          rfl
    | none =>
        refine ⟨_, _, .bare http credential, fun acc => ?_⟩
        rw [installLossy, if_neg (not_not_intro http), credential]
        rfl
  · refine ⟨_, _, .leftOut http, fun acc => ?_⟩
    rw [installLossy, if_pos http, Option.toList_none, List.append_nil]
    rfl

/-- The loop hands on what it has, and adds what it makes of the entries. -/
theorem foldl_handled (sys : SystemProxies) (entries : List ProxyEntry) :
    ∃ list report, HandledAll sys entries list report ∧ ∀ acc,
      entries.foldl (installLossy sys) acc = (acc.1 ++ list, acc.2 ++ report) := by
  induction entries with
  | nil =>
      refine ⟨[], [], .nil, fun acc => ?_⟩
      rw [List.append_nil, List.append_nil]
      rfl
  | cons entry entries ih =>
      obtain ⟨p, named, handled, step⟩ := installLossy_handled sys entry
      obtain ⟨list, report, rest, run⟩ := ih
      refine ⟨_, _, .cons handled rest, fun acc => ?_⟩
      rw [List.foldl_cons, step, run, List.append_assoc, List.append_assoc]

theorem accounted_lossy (starred : sys.bypassEverything = false) :
    Accounted sys (httpProxiesLossy sys).1 (httpProxiesLossy sys).2 := by
  obtain ⟨list, report, handled, run⟩ := foldl_handled sys sys.entries
  have lossy : httpProxiesLossy sys = (list, unstated sys ++ report) := by
    rw [httpProxiesLossy, starred, if_neg Bool.false_ne_true, run]
    rfl
  rw [lossy]
  exact ⟨report, handled, rfl⟩

/-- Entries of which none is named are all installed as the strict translation installs them. -/
theorem HandledAll.installed (handled : HandledAll sys entries list report) (clean : report = []) :
    installAll sys entries = .ok list := by
  induction handled with
  | nil => rfl
  | cons one rest ih =>
      rw [List.append_eq_nil_iff] at clean
      cases one with
      | whole done =>
          rw [installAll, done, ih clean.2]
          rfl
      | bare http credential => cases clean.1
      | leftOut other => cases clean.1

theorem strict_of_lossy (clean : httpProxiesLossy sys = (list, [])) : httpProxies sys = .ok list := by
  have named : (httpProxiesLossy sys).2 = [] := congrArg Prod.snd clean
  have before : unstated sys = [] := by
    cases starred : sys.bypassEverything with
    | true =>
        rw [httpProxiesLossy, starred] at named
        exact named
    | false =>
        obtain ⟨report, -, same⟩ := accounted_lossy starred
        rw [named] at same
        exact (List.append_eq_nil_iff.mp same.symm).1
  obtain ⟨pac, odd⟩ := List.append_eq_nil_iff.mp before
  rw [List.map_eq_nil_iff] at odd
  have pac : sys.pac = none := by
    cases url : sys.pac with
    | none => rfl
    | some url' =>
        rw [url] at pac
        cases pac
  rw [httpProxies, pac, odd]
  dsimp only [List.head?_nil]
  cases starred : sys.bypassEverything with
  | true =>
      have same : [] = list := by
        rw [httpProxiesLossy, starred] at clean
        exact congrArg Prod.fst clean
      rw [← same]
      rfl
  | false =>
      obtain ⟨report, handled, same⟩ := accounted_lossy starred
      rw [clean] at handled same
      exact handled.installed (List.append_eq_nil_iff.mp same.symm).2

/-- The strict translation succeeds exactly where the lenient one reports nothing, with the same
list. Unless everything is to go around the proxies, the report accounts for what is not
installed; where it is, there is no list to account for. -/
theorem lossy_accounts (sys : SystemProxies) :
    (∀ list, httpProxies sys = .ok list ↔ httpProxiesLossy sys = (list, [])) ∧
      if sys.bypassEverything then httpProxiesLossy sys = ([], unstated sys)
      else Accounted sys (httpProxiesLossy sys).1 (httpProxiesLossy sys).2 := by
  constructor
  · intro list
    exact ⟨httpProxiesLossy_of_strict, strict_of_lossy⟩
  · split
    next starred => rw [httpProxiesLossy, if_pos starred]; rfl
    next starred => exact accounted_lossy (Bool.eq_false_iff.mpr starred)

/-- One proxy, and a bypass of everything. -/
def bypassed : SystemProxies :=
  ⟨[⟨.http, "proxy".toList, 3128, none, none, false⟩], [], false, true, [], [], none⟩

/-- The proxy is neither installed nor named. -/
theorem bypassed_unaccounted :
    ¬ Accounted bypassed (httpProxiesLossy bypassed).1 (httpProxiesLossy bypassed).2 := by
  rintro ⟨named, handled, -⟩
  generalize lossy : (httpProxiesLossy bypassed).1 = list at handled
  change [] = list at lossy
  obtain _ | ⟨one, rest⟩ := handled
  cases one with
  | whole done => cases lossy
  | bare http credential => cases credential
  | leftOut other => exact other rfl

end
end HClient.Egress
