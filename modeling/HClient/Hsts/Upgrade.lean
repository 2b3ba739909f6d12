import Mathlib
import HClient.Hsts.Rules

/-!
# What an upgrade answers

The policy set after a run is read off the run: each name's policy is its latest accepted
note's, unless a lookup since then met it expired. The answer of an upgrade follows.
-/
namespace HClient.Hsts

open Effect Kv

def policyAfter (calls : List Call) : Policies :=
  calls.foldl (fun P c => c.onPolicies P) fun _ => none

/-- The latest accepted note for `d` asserted `directives` at `t`; `after` came behind it. -/
def LatestNote (calls : List Call) (d : Text) (directives : Directives) (t : SystemTime)
    (after : List Call) : Prop :=
  ∃ before c, calls = before ++ c :: after ∧ c.accepted = some (d, directives, t) ∧
    ∀ c' ∈ after, ∀ n, c'.accepted = some n → n.1 ≠ d

/-- No lookup of the calls met the policy `d` was noted with expired. -/
def Undisturbed (d : Text) (directives : Directives) (t : SystemTime) (after : List Call) :
    Prop :=
  ∀ c ∈ after, ∀ l, c.lookup = some l → d ∈ candidateDomains l.1 → d ≠ [] →
    l.2 < keptExpiry (expiryOf t directives.maxAge)

theorem latestNote_nil {d : Text} {directives : Directives} {t : SystemTime}
    {after : List Call} : ¬ LatestNote [] d directives t after := by
  rintro ⟨before, c, split, -⟩
  simp at split

theorem latestNote_concat {calls : List Call} {c : Call} {d : Text} {directives : Directives}
    {t : SystemTime} {after : List Call} :
    LatestNote (calls ++ [c]) d directives t after ↔
      (after = [] ∧ c.accepted = some (d, directives, t)) ∨
      ∃ after', after = after' ++ [c] ∧ (∀ n, c.accepted = some n → n.1 ≠ d) ∧
        LatestNote calls d directives t after' := by
  constructor
  · rintro ⟨before, note, split, accepted, later⟩
    rcases List.eq_nil_or_concat after with rfl | ⟨after', last, rfl⟩
    · have ends := List.append_inj' split rfl
      cases ends.2
      exact .inl ⟨rfl, accepted⟩
    · rw [List.concat_eq_append] at *
      rw [← List.cons_append, ← List.append_assoc] at split
      have ends := List.append_inj' split rfl
      cases ends.2
      refine .inr ⟨after', rfl, later c (by simp), before, note, ends.1, accepted, ?_⟩
      exact fun c' hc => later c' (by simp [hc])
  · rintro (⟨rfl, accepted⟩ | ⟨after', rfl, other, before, note, rfl, accepted, later⟩)
    · exact ⟨calls, c, rfl, accepted, by simp⟩
    · refine ⟨before, note, by simp, accepted, fun c' hc n hn => ?_⟩
      rcases List.mem_append.mp hc with hc | hc
      · exact later c' hc n hn
      · cases List.mem_singleton.mp hc
        exact other n hn

theorem undisturbed_concat {d : Text} {directives : Directives} {t : SystemTime}
    {after : List Call} {c : Call} :
    Undisturbed d directives t (after ++ [c]) ↔
      Undisturbed d directives t after ∧ Undisturbed d directives t [c] := by
  simp only [Undisturbed, List.mem_append, List.mem_singleton, or_imp, forall_and]

/-- That `p` is what the latest note for `d` left in force. -/
def InForce (calls : List Call) (d : Text) (p : Policy) : Prop :=
  ∃ directives t after, LatestNote calls d directives t after ∧
    policyAsserted directives t = some p ∧ Undisturbed d directives t after

theorem policyAsserted_eq_some {directives : Directives} {t : SystemTime} {p : Policy} :
    policyAsserted directives t = some p ↔ 0 < directives.maxAge ∧
      p = ⟨expiryOf t directives.maxAge, directives.includeSubdomains⟩ := by
  by_cases zero : directives.maxAge = 0
  · simp [policyAsserted, zero]
  · simp [policyAsserted, zero, Nat.pos_of_ne_zero zero, eq_comm]

/-- A call that notes nothing for `d` leaves its policy in force unless it looks it up expired. -/
theorem inForce_concat_other {calls : List Call} {c : Call} {d : Text} {p : Policy}
    (other : ∀ n, c.accepted = some n → n.1 ≠ d) :
    InForce (calls ++ [c]) d p ↔ InForce calls d p ∧
      ∀ l, c.lookup = some l → d ∈ candidateDomains l.1 → d ≠ [] →
        l.2 < keptExpiry p.expiresAt := by
  constructor
  · rintro ⟨directives, t, after, latest, asserted, quiet⟩
    obtain ⟨-, hp⟩ := policyAsserted_eq_some.mp asserted
    rcases latestNote_concat.mp latest with ⟨-, accepted⟩ | ⟨after', rfl, -, latest⟩
    · exact absurd rfl (other _ accepted)
    · rw [undisturbed_concat] at quiet
      refine ⟨⟨directives, t, after', latest, asserted, quiet.1⟩, ?_⟩
      rw [hp]
      exact quiet.2 c (by simp)
  · rintro ⟨⟨directives, t, after, latest, asserted, quiet⟩, unexpired⟩
    obtain ⟨-, hp⟩ := policyAsserted_eq_some.mp asserted
    rw [hp] at unexpired
    refine ⟨directives, t, after ++ [c], ?_, asserted, ?_⟩
    · exact latestNote_concat.mpr (.inr ⟨after, rfl, other, latest⟩)
    · rw [undisturbed_concat]
      refine ⟨quiet, fun c' hc => ?_⟩
      rw [List.mem_singleton.mp hc]
      exact unexpired

theorem inForce_concat_noted {calls : List Call} {c : Call} {d : Text} {directives : Directives}
    {t : SystemTime} {p : Policy} (accepted : c.accepted = some (d, directives, t)) :
    InForce (calls ++ [c]) d p ↔ policyAsserted directives t = some p := by
  constructor
  · rintro ⟨directives', t', after, latest, asserted, -⟩
    rcases latestNote_concat.mp latest with ⟨-, same⟩ | ⟨after', rfl, other, -⟩
    · cases accepted.symm.trans same
      exact asserted
    · exact absurd rfl (other _ accepted)
  · intro asserted
    refine ⟨directives, t, [], latestNote_concat.mpr (.inl ⟨rfl, accepted⟩), asserted, ?_⟩
    exact fun c' hc => absurd hc (List.not_mem_nil)

theorem evict_eq_some {P : Policies} {domains : List Text} {now : SystemTime} {d : Text}
    {p : Policy} : P.evict domains now d = some p ↔
      P d = some p ∧ (d ∈ domains → d ≠ [] → now < keptExpiry p.expiresAt) := by
  rw [Policies.evict, Option.filter_eq_some_iff]
  simp only [forgets, Bool.not_eq_true', decide_eq_false_iff_not, not_and, SystemTime.not_le]

/-- The policy a name has after a run is the one in force. -/
theorem policyAfter_eq_some {calls : List Call} {d : Text} {p : Policy} :
    policyAfter calls d = some p ↔ InForce calls d p := by
  induction calls using List.reverseRecOn generalizing p with
  | nil =>
      constructor
      · intro h
        cases h
      · rintro ⟨_, _, _, latest, -⟩
        exact absurd latest latestNote_nil
  | append_singleton calls c ih =>
      have step : policyAfter (calls ++ [c]) = c.onPolicies (policyAfter calls) := by
        simp [policyAfter]
      rw [step]
      cases c with
      | note uri headers secure now =>
          cases ha : asserted uri headers secure with
          | none =>
              rw [inForce_concat_other (by simp [Call.accepted, ha]), ← ih]
              simp [Call.onPolicies, Call.accepted, Call.lookup, ha]
          | some pair =>
              obtain ⟨domain, directives⟩ := pair
              by_cases same : d = domain
              · subst same
                have accepted : (Call.note uri headers secure now).accepted =
                    some (d, directives, now) := by simp [Call.accepted, ha]
                rw [inForce_concat_noted accepted]
                simp [Call.onPolicies, accepted]
              · have other : ∀ n, (Call.note uri headers secure now).accepted = some n →
                    n.1 ≠ d := by
                  intro n hn
                  simp only [Call.accepted, ha, Option.map_some, Option.some.injEq] at hn
                  exact fun e => same (by rw [← e, ← hn])
                rw [inForce_concat_other other, ← ih]
                simp [Call.onPolicies, Call.accepted, Call.lookup, ha, same]
      | upgrade uri now =>
          rw [inForce_concat_other (by simp [Call.accepted]), ← ih]
          cases hl : lookedUp uri with
          | none => simp [Call.onPolicies, Call.accepted, Call.lookup, hl]
          | some host => simp [Call.onPolicies, Call.accepted, Call.lookup, hl, evict_eq_some]

/-! ## The answer -/

/-- `d` is a proper superdomain of `h`: a right-hand portion of it behind a dot. -/
def IsSuperdomain (d h : Text) : Prop := d ≠ [] ∧ ∃ front, h = front ++ '.' :: d

theorem isSuperdomain_cons {c : Char} {h d : Text} :
    IsSuperdomain d (c :: h) ↔ (c = '.' ∧ d = h ∧ d ≠ []) ∨ IsSuperdomain d h := by
  constructor
  · rintro ⟨nonempty, front, split⟩
    cases front with
    | nil =>
        cases split
        exact .inl ⟨rfl, rfl, nonempty⟩
    | cons c' front =>
        cases split
        exact .inr ⟨nonempty, front, rfl⟩
  · rintro (⟨rfl, rfl, nonempty⟩ | ⟨nonempty, front, rfl⟩)
    · exact ⟨nonempty, [], rfl⟩
    · exact ⟨nonempty, c :: front, rfl⟩

theorem mem_superdomains {host d : Text} :
    d ∈ superdomains host ↔ IsSuperdomain d (Text.toAsciiLowercase host) := by
  induction host with
  | nil => simp [superdomains, Text.toAsciiLowercase, IsSuperdomain]
  | cons c tail ih =>
      have dot : c.toLower = '.' ↔ c = '.' := Text.toLower_eq_iff (by decide)
      have lowered : Text.toAsciiLowercase (c :: tail) =
          c.toLower :: Text.toAsciiLowercase tail := rfl
      rw [lowered, isSuperdomain_cons, dot, ← ih, superdomains]
      split
      · rename_i found
        simp only [List.mem_cons, found.1, true_and]
        constructor
        · rintro (rfl | member)
          · exact .inl ⟨rfl, by simpa using found.2⟩
          · exact .inr member
        · rintro (⟨rfl, -⟩ | member)
          · exact .inl rfl
          · exact .inr member
      · rename_i notfound
        constructor
        · exact .inr
        · rintro (⟨rfl, rfl, nonempty⟩ | member)
          · exact absurd ⟨rfl, by simpa using nonempty⟩ notfound
          · exact member

theorem mem_candidateDomains {host d : Text} :
    d ∈ candidateDomains host ↔
      d = Text.toAsciiLowercase host ∨ IsSuperdomain d (Text.toAsciiLowercase host) := by
  rw [candidateDomains, List.mem_cons, mem_superdomains]

theorem candidate_ne_nil {host d : Text} (named : host ≠ []) (member : d ∈ candidateDomains host) :
    d ≠ [] := by
  rcases mem_candidateDomains.mp member with rfl | ⟨nonempty, -⟩
  · simpa using named
  · exact nonempty

theorem isCovered_iff {P : Policies} {host : Text} {now : SystemTime} (named : host ≠ []) :
    isCovered (candidateDomains host) ((candidateDomains host).filterMap (readBack P)) now ↔
      ∃ d ∈ candidateDomains host, ∃ p, P d = some p ∧ now < keptExpiry p.expiresAt ∧
        (d = Text.toAsciiLowercase host ∨ p.includeSubdomains) := by
  simp only [isCovered, List.any_eq_true, List.mem_filterMap, Bool.and_eq_true, Bool.or_eq_true,
    Bool.not_eq_true', decide_eq_false_iff_not, decide_eq_true_eq, SystemTime.not_le,
    candidateDomains, List.head?_cons, Option.some.injEq]
  constructor
  · rintro ⟨entry, ⟨d, member, read⟩, live, congruent⟩
    obtain ⟨p, hp, read⟩ := Option.bind_eq_some_iff.mp read
    rw [if_neg (candidate_ne_nil named member)] at read
    cases read
    exact ⟨d, member, p, hp, live, congruent.imp_left Eq.symm⟩
  · rintro ⟨d, member, p, hp, live, congruent⟩
    refine ⟨⟨d, keptExpiry p.expiresAt, p.includeSubdomains⟩, ⟨d, member, ?_⟩, live,
      congruent.imp_left Eq.symm⟩
    simp [readBack, hp, candidate_ne_nil named member]

/-- When the store lets go of a policy noted at `t`: the sum in whole seconds, or `t` itself
where the clock cannot hold the sum. -/
def policyExpiry (t : SystemTime) (maxAge : Nat) : SystemTime := keptExpiry (expiryOf t maxAge)

/-- An `http` URI with a name for a host is upgraded exactly when the host is known. -/
theorem upgrade_isSome {uri : Uri} {host : Text} {now : SystemTime} {kv : Memory}
    (http : uri.scheme = some .http) (hosted : uri.host = some host)
    (name : isIpLiteral host = false) (named : host ≠ []) :
    ((upgrade uri now).runWith KvCall.handle kv).1.isSome =
      ((isKnown host now).runWith KvCall.handle kv).1 := by
  have looked : lookedUp uri = some host := by simp [lookedUp, http, hosted, name]
  have rebuilt : (upgraded uri).isSome := by
    obtain ⟨authority, ha, rfl⟩ := Option.map_eq_some_iff.mp hosted
    simp [upgraded, ha, named]
  rw [upgrade_eq, looked]
  simp only [Program.runWith_bind]
  cases ((isKnown host now).runWith KvCall.handle kv).1 <;> simp [rebuilt]

/-- Every name the calls note or look up. -/
def namesOf (calls : List Call) : Set Text := {d | ∃ c ∈ calls, d ∈ c.names}

/-- Names that do not end in a dot keep their keys apart. -/
theorem reverseLabels_injOn {names : Set Text} (nodot : ∀ d ∈ names, d.getLast? ≠ some '.') :
    names.InjOn reverseLabels :=
  fun a ha b hb same => reverseLabels_inj (nodot a ha) (nodot b hb) same

/-- An upgrade answers for exactly those hosts that a policy in force covers. -/
theorem upgrade_isSome_iff (calls : List Call) (uri : Uri) (host : Text) (now : SystemTime)
    (http : uri.scheme = some .http) (hosted : uri.host = some host)
    (name : isIpLiteral host = false) (named : host ≠ [])
    (apart : (namesOf calls ∪ {d | d ∈ candidateDomains host}).InjOn reverseLabels) :
    ((upgrade uri now).runWith KvCall.handle (runAll calls MemoryStore.new)).1.isSome ↔
      ∃ d directives t after, LatestNote calls d directives t after ∧
        0 < directives.maxAge ∧ now < policyExpiry t directives.maxAge ∧
        (d = Text.toAsciiLowercase host ∨
          IsSuperdomain d (Text.toAsciiLowercase host) ∧ directives.includeSubdomains) ∧
        ∀ c ∈ after, ∀ l, c.lookup = some l → d ∈ candidateDomains l.1 →
          l.2 < policyExpiry t directives.maxAge := by
  have stored := runAll_represents apart calls (represents_new _)
    fun c hc d hd => .inl ⟨c, hc, hd⟩
  have answer := (isKnown_represents apart stored now fun d hd => .inr hd).1
  rw [upgrade_isSome http hosted name named, answer]
  refine (isCovered_iff named).trans ?_
  constructor
  · rintro ⟨d, member, p, hp, live, congruent⟩
    obtain ⟨directives, t, after, latest, asserted, quiet⟩ := policyAfter_eq_some.mp hp
    obtain ⟨positive, rfl⟩ := policyAsserted_eq_some.mp asserted
    have nonempty := candidate_ne_nil named member
    refine ⟨d, directives, t, after, latest, positive, live, ?_, ?_⟩
    · rcases mem_candidateDomains.mp member with rfl | super
      · exact .inl rfl
      · exact congruent.imp_right fun includes => ⟨super, includes⟩
    · exact fun c hc l hl inside => quiet c hc l hl inside nonempty
  · rintro ⟨d, directives, t, after, latest, positive, live, congruent, quiet⟩
    have member : d ∈ candidateDomains host :=
      mem_candidateDomains.mpr (congruent.imp_right And.left)
    refine ⟨d, member, ⟨expiryOf t directives.maxAge, directives.includeSubdomains⟩, ?_, live,
      congruent.imp_right And.right⟩
    refine policyAfter_eq_some.mpr ⟨directives, t, after, latest, ?_, ?_⟩
    · exact policyAsserted_eq_some.mpr ⟨positive, rfl⟩
    · exact fun c hc l hl inside _ => quiet c hc l hl inside

/-- `http://a.test/` after `https://a.test/` asserted an hour, ten seconds earlier. -/
theorem upgrade_isSome_iff_hour :
    ((upgrade ⟨some .http, some ⟨none, "a.test".toList, none⟩, none⟩ ⟨10000000000, by decide⟩).runWith
        KvCall.handle (runAll [.note ⟨some .https, some ⟨none, "a.test".toList, none⟩, none⟩
          [("strict-transport-security".toList, .ofAscii "max-age=3600")] true
          ⟨0, by decide⟩] MemoryStore.new)).1.isSome :=
  (upgrade_isSome_iff _ _ "a.test".toList _ rfl rfl (by decide) (by decide)
    (reverseLabels_injOn (by
      rintro d (⟨c, hc, hd⟩ | hd)
      · rw [List.mem_singleton] at hc
        subst hc
        revert d
        decide
      · change d ∈ candidateDomains "a.test".toList at hd
        revert d
        decide))).mpr
    ⟨"a.test".toList, ⟨3600, false⟩, ⟨0, by decide⟩, [], ⟨[], _, rfl, by decide, by simp⟩, by decide,
      by decide, .inl (by decide), by simp⟩

/-- The wording of RFC 6797, to the nanosecond and whatever was looked up in between. -/
def Covered (calls : List Call) (host : Text) (now : SystemTime) : Prop :=
  ∃ d directives t after, LatestNote calls d directives t after ∧ 0 < directives.maxAge ∧
    now.nanos < t.nanos + min maxAgeCap (.fromSecs directives.maxAge) ∧
    (d = Text.toAsciiLowercase host ∨
      IsSuperdomain d (Text.toAsciiLowercase host) ∧ directives.includeSubdomains)

/-- A policy of one second asserted half a second into a second is gone after half a second. -/
theorem upgrade_forgets_fraction :
    let calls := [Call.note ⟨some .https, some ⟨none, "a.test".toList, none⟩, none⟩
      [("strict-transport-security".toList, .ofAscii "max-age=1")] true ⟨500000000, by decide⟩]
    let now : SystemTime := ⟨1200000000, by decide⟩
    Covered calls "a.test".toList now ∧
      ((upgrade ⟨some .http, some ⟨none, "a.test".toList, none⟩, none⟩ now).runWith
        KvCall.handle (runAll calls MemoryStore.new)).1 = none := by
  refine ⟨⟨"a.test".toList, ⟨1, false⟩, ⟨500000000, by decide⟩, [], ⟨[], _, rfl, ?_, ?_⟩, ?_, ?_, ?_⟩, ?_⟩
  · decide
  · simp
  · decide
  · decide
  · exact .inl (by decide)
  · decide

end HClient.Hsts
