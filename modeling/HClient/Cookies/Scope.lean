import HClient.Cookies.Jar
import HClient.Effect.Interleave

/-!
# Where a cookie can go

Whatever responses a jar has been told of, in any interleaving of their store calls, a
cookie it answers for a request was accepted from a response whose scope covers the request.
-/
namespace HClient.Cookies

open Effect CookieJar

/-- One cookie but for the times and the place a jar keeps with it. -/
structure SameCookie (c d : Cookie) : Prop where
  name : c.name = d.name
  value : c.value = d.value
  domain : c.domain = d.domain
  path : c.path = d.path
  expires : c.expires = d.expires
  hostOnly : c.hostOnly = d.hostOnly
  secure : c.secure = d.secure

namespace SameCookie

theorem refl (c : Cookie) : SameCookie c c := ⟨rfl, rfl, rfl, rfl, rfl, rfl, rfl⟩

theorem of_touched {c d : Cookie} {now : SystemTime} (same : SameCookie c d) :
    SameCookie { c with lastAccess := now } d :=
  ⟨same.name, same.value, same.domain, same.path, same.expires, same.hostOnly, same.secure⟩

theorem trans {c d e : Cookie} (h : SameCookie c d) (h' : SameCookie d e) : SameCookie c e :=
  ⟨h.name.trans h'.name, h.value.trans h'.value, h.domain.trans h'.domain, h.path.trans h'.path,
    h.expires.trans h'.expires, h.hostOnly.trans h'.hostOnly, h.secure.trans h'.secure⟩

end SameCookie

theorem Held.holds_touch {now : SystemTime} {c : Cookie} (keys : List CookieKey) {h : Held}
    (holds : (h.touch keys now).Holds c) : ∃ d, h.Holds d ∧ SameCookie c d := by
  induction keys generalizing h with
  | nil => exact ⟨c, holds, .refl c⟩
  | cons key keys ih =>
      obtain ⟨d, holds, same⟩ := ih holds
      obtain held | ⟨e, held, rfl⟩ := Held.holds_touchOne holds
      · exact ⟨d, held, same⟩
      · exact ⟨e, held, same.trans (SameCookie.of_touched (.refl e))⟩

/-- What a cookie's own rules ask of a request and of the response that set it. -/
structure InScope (suffixes : PublicSuffixList) (request response : Uri) (c : Cookie) : Prop where
  host : (∃ host, canonicalHost request = some host ∧ canonicalHost response = some host) ∨
    (c.hostOnly = false ∧ suffixes.isPublicSuffix c.domain = false ∧
      ∃ host host', canonicalHost request = some host ∧ canonicalHost response = some host' ∧
        Covers c.domain host ∧ Covers c.domain host')
  secure : c.secure = true → isSecureRequest request = true ∧ isSecureRequest response = true
  hostPrefix : hasNamePrefix "__host-" c.name = true →
    (∃ host, canonicalHost request = some host ∧ canonicalHost response = some host) ∧
      c.path = ['/']

namespace CookieJar
variable {jar : CookieJar}

theorem scopeDomain_ok {host domain : Text} {asked : Option Text} {hostOnly : Bool}
    (settled : jar.scopeDomain host asked = .ok (domain, hostOnly)) :
    (hostOnly = true ∧ domain = host) ∨
      (hostOnly = false ∧ jar.suffixes.isPublicSuffix domain = false ∧
        Covers domain host) := by
  cases asked with
  | none =>
      cases settled
      exact .inl ⟨rfl, rfl⟩
  | some written =>
      simp only [scopeDomain] at settled
      split at settled
      · split at settled
        · cases settled
          exact .inl ⟨rfl, rfl⟩
        · cases settled
      split at settled
      · split at settled
        · cases settled
          exact .inl ⟨rfl, rfl⟩
        · split at settled <;> cases settled
      next notSuffix =>
        split at settled
        next covered =>
          cases settled
          exact .inr ⟨rfl, Bool.not_eq_true _ ▸ notSuffix, (domainMatches_iff _ _).mp covered⟩
        · cases settled

/-- What holds of a cookie that was not refused. -/
structure Prepared (jar : CookieJar) (response : Uri) (c : Cookie) : Prop where
  host : ∃ host, canonicalHost response = some host ∧
    ((c.hostOnly = true ∧ c.domain = host) ∨
      (c.hostOnly = false ∧ jar.suffixes.isPublicSuffix c.domain = false ∧ Covers c.domain host))
  secure : c.secure = true → isSecureRequest response = true
  hostPrefix : hasNamePrefix "__host-" c.name = true → c.hostOnly = true ∧ c.path = ['/']

theorem prepare_ok {response : Uri} {setCookie : HeaderValue} {now : SystemTime} {c : Cookie}
    (accepted : jar.prepare response setCookie now = .ok c) : jar.Prepared response c ∧
      ∃ parsed, SetCookie.parse setCookie = .ok parsed ∧ c.name = parsed.name ∧
        c.value = parsed.value := by
  unfold prepare at accepted
  cases canonical : canonicalHost response with
  | none => simp [canonical] at accepted
  | some host =>
    cases parsing : SetCookie.parse setCookie with
    | error e => simp [canonical, parsing] at accepted
    | ok parsed =>
      simp only [canonical, parsing] at accepted
      split at accepted
      · cases accepted
      cases scoping : jar.scopeDomain host parsed.domain with
      | error e => simp [scoping] at accepted
      | ok scope =>
        obtain ⟨domain, hostOnly⟩ := scope
        simp only [scoping] at accepted
        split at accepted
        · cases accepted
        next secureOk =>
          split at accepted
          · cases accepted
          split at accepted
          · cases accepted
          next prefixOk =>
            cases accepted
            refine ⟨⟨⟨host, canonical, scopeDomain_ok scoping⟩, ?_, ?_⟩, parsed, rfl, rfl, rfl⟩
            · intro marked
              simpa [show parsed.secure = true from marked] using secureOk
            · intro named
              have wellFormed := prefixOk
              simp only [show hasNamePrefix "__host-" parsed.name = true from named,
                Bool.true_and, Bool.not_eq_true', Bool.not_eq_false, Bool.and_eq_true,
                decide_eq_true_eq] at wellFormed
              exact ⟨wellFormed.1.2, wellFormed.2⟩

theorem Prepared.same {response : Uri} {c d : Cookie} (prepared : jar.Prepared response d)
    (same : SameCookie c d) : jar.Prepared response c := by
  obtain ⟨host, secure, hostPrefix⟩ := prepared
  constructor
  · simpa only [same.hostOnly, same.domain] using host
  · simpa only [same.secure] using secure
  · simpa only [same.name, same.hostOnly, same.path] using hostPrefix

/-- What passes the filter of `matching` is in scope, when it was accepted. -/
theorem Prepared.inScope {request response : Uri} {c : Cookie} {host : Text} {now : SystemTime}
    (prepared : jar.Prepared response c) (canonical : canonicalHost request = some host)
    (passes : applies host (requestPath request) (isSecureRequest request) now c = true) :
    InScope jar.suffixes request response c := by
  obtain ⟨host', canonical', scope⟩ := prepared.host
  simp only [applies, Bool.and_eq_true] at passes
  obtain ⟨⟨⟨-, hosts⟩, -⟩, secureOk⟩ := passes
  have hostOnlySame : c.hostOnly = true → host = c.domain := by
    intro only
    simpa [only] using hosts
  refine ⟨?_, ?_, ?_⟩
  · rcases scope with ⟨only, domain⟩ | ⟨shared, notSuffix, covers⟩
    · exact .inl ⟨host, canonical, by rw [canonical', ← domain, hostOnlySame only]⟩
    · have covered : Covers c.domain host := by
        rw [← domainMatches_iff]
        simpa [shared] using hosts
      exact .inr ⟨shared, notSuffix, host, host', canonical, canonical', covered, covers⟩
  · intro marked
    exact ⟨by simpa [marked] using secureOk, prepared.secure marked⟩
  · intro named
    obtain ⟨only, path⟩ := prepared.hostPrefix named
    rcases scope with ⟨-, domain⟩ | ⟨shared, -⟩
    · exact ⟨⟨host, canonical, by rw [canonical', ← domain, hostOnlySame only]⟩, path⟩
    · rw [only] at shared
      cases shared

end CookieJar

/-- The operations that run on a jar at the same time. -/
inductive JarCall where
  | store (uri : Uri) (setCookie : HeaderValue) (now : SystemTime)
  | storeResponse (uri : Uri) (headers : HeaderMap HeaderValue) (now : SystemTime)
  | cookieHeader (uri : Uri) (now : SystemTime)

def JarCall.body (jar : CookieJar) : JarCall → Script Unit
  | .store uri setCookie now => (jar.store uri setCookie now).bind fun _ => pure ()
  | .storeResponse uri headers now => (jar.storeResponse uri headers now).bind fun _ => pure ()
  | .cookieHeader uri now => (CookieJar.cookieHeader uri now).bind fun _ => pure ()

/-- The call hands the jar this `Set-Cookie` of this response. -/
inductive JarCall.Offers : JarCall → Uri → HeaderValue → SystemTime → Prop
  | store (uri : Uri) (setCookie : HeaderValue) (now : SystemTime) :
      Offers (.store uri setCookie now) uri setCookie now
  | storeResponse {uri : Uri} {headers : HeaderMap HeaderValue} {now : SystemTime}
      {setCookie : HeaderValue} (member : setCookie ∈ headers.getAll setCookieName) :
      Offers (.storeResponse uri headers now) uri setCookie now

/-- The cookie is one the call offers and the jar does not refuse. -/
def JarCall.Accepts (jar : CookieJar) (call : JarCall) (response : Uri) (c : Cookie) : Prop :=
  ∃ setCookie now accepted, call.Offers response setCookie now ∧
    jar.prepare response setCookie now = .ok accepted ∧ SameCookie c accepted

def jarSystem (jar : CookieJar) (capacity : Capacity) :
    System JarCall StoreCall StoreCall.Answer Unit JarState where
  body := JarCall.body jar
  enter _ s := some s
  handle := MemoryStore.handle capacity

/-- The store calls that put no cookie in but such as `fine` allows. -/
def PutsOnly (fine : Cookie → Prop) : StoreCall → Prop
  | .put cookie _ => fine cookie
  | _ => True

section Puts
variable {fine : Cookie → Prop} (kept : ∀ c d, SameCookie c d → fine d → fine c)
include kept

theorem resolve_putsOnly {held : List Cookie} {cookie : Cookie} (ok : fine cookie) :
    (resolve held cookie).Within (PutsOnly fine) fine := by
  unfold resolve
  split
  · exact kept _ cookie ⟨rfl, rfl, rfl, rfl, rfl, rfl, rfl⟩ ok
  · exact ⟨trivial, fun _ => kept _ cookie ⟨rfl, rfl, rfl, rfl, rfl, rfl, rfl⟩ ok⟩

theorem insert_putsOnly {cookie : Cookie} {now : SystemTime} (ok : fine cookie) :
    (insert cookie now).Within (PutsOnly fine) fun _ => True :=
  ⟨trivial, fun _ => (resolve_putsOnly kept ok).bind fun _ ok => ⟨ok, fun _ => trivial⟩⟩

theorem place_putsOnly {held : List Cookie} {now : SystemTime} (cookies placed : List Cookie)
    (ok : ∀ c ∈ cookies, fine c) :
    (place held now placed cookies).Within (PutsOnly fine) fun _ => True := by
  induction cookies generalizing placed with
  | nil => trivial
  | cons cookie rest ih =>
      refine (resolve_putsOnly kept (ok cookie List.mem_cons_self)).bind fun resolved fineToo => ?_
      exact ⟨fineToo, fun _ => ih _ fun c member => ok c (List.mem_cons_of_mem _ member)⟩

end Puts

theorem matching_putsOnly {fine : Cookie → Prop} (uri : Uri) (now : SystemTime) :
    (matching uri now).Within (PutsOnly fine) fun _ => True := by
  unfold matching
  split
  · trivial
  · exact ⟨trivial, fun _ => trivial⟩

theorem cookieHeader_putsOnly {fine : Cookie → Prop} (uri : Uri) (now : SystemTime) :
    (cookieHeader uri now).Within (PutsOnly fine) fun _ => True := by
  refine (matching_putsOnly uri now).bind fun matched _ => ?_
  split
  · trivial
  · exact ⟨trivial, fun _ => trivial⟩

theorem JarCall.accepts_same {jar : CookieJar} {call : JarCall} (c d : Cookie)
    (same : SameCookie c d) (h : ∃ response, call.Accepts jar response d) :
    ∃ response, call.Accepts jar response c := by
  obtain ⟨response, setCookie, now, accepted, offers, prepared, same'⟩ := h
  exact ⟨response, setCookie, now, accepted, offers, prepared, same.trans same'⟩

theorem JarCall.body_putsOnly (jar : CookieJar) (call : JarCall) :
    (call.body jar).Within (PutsOnly fun c => ∃ response, call.Accepts jar response c)
      fun _ => True := by
  cases call with
  | store uri setCookie now =>
      simp only [JarCall.body, CookieJar.store]
      cases prepared : jar.prepare uri setCookie now with
      | error e => trivial
      | ok cookie =>
          have ok : ∃ response, (JarCall.store uri setCookie now).Accepts jar response cookie :=
            ⟨uri, setCookie, now, cookie, .store uri setCookie now, prepared, .refl _⟩
          exact (insert_putsOnly JarCall.accepts_same ok).ignore.ignore
  | storeResponse uri headers now =>
      simp only [JarCall.body, CookieJar.storeResponse]
      split
      · trivial
      · refine ⟨trivial, fun held => ?_⟩
        refine (place_putsOnly JarCall.accepts_same _ _ ?_).ignore.ignore
        intro c member
        obtain ⟨setCookie, there, prepared⟩ := List.mem_filterMap.mp member
        refine ⟨uri, setCookie, now, c, .storeResponse there, ?_, .refl _⟩
        cases outcome : jar.prepare uri setCookie now with
        | error e => simp [outcome, Except.toOption] at prepared
        | ok d => simpa [outcome, Except.toOption] using prepared
  | cookieHeader uri now =>
      exact (cookieHeader_putsOnly uri now).ignore

section Runs
variable {ι : Type} {jar : CookieJar} {capacity : Capacity}

abbrev JarPool (ι : Type) := Pool ι JarCall StoreCall StoreCall.Answer Unit JarState

def emptyPool : JarPool ι := ⟨JarState.new, fun _ => none⟩

/-- The cookie was accepted from a response that some call has brought. -/
def Brought (jar : CookieJar) (s : JarPool ι) (c : Cookie) : Prop :=
  ∃ i call response, s.aboutOf i = some call ∧ call.Accepts jar response c

def AllBrought (jar : CookieJar) (s : JarPool ι) : Prop :=
  ∀ c, s.shared.store.Holds c → Brought jar s c

theorem Brought.same {s : JarPool ι} {c d : Cookie} (same : SameCookie c d)
    (brought : Brought jar s d) : Brought jar s c := by
  obtain ⟨i, call, response, there, accepts⟩ := brought
  obtain ⟨response, accepts⟩ := JarCall.accepts_same c d same ⟨response, accepts⟩
  exact ⟨i, call, response, there, accepts⟩

variable [DecidableEq ι]

/-- A step forgets no call, and a call stays what it was started as. -/
theorem aboutOf_step {s s' : JarPool ι} {l : Label ι JarCall}
    (stepped : (jarSystem jar capacity).step s l = some s') {i : ι} {call : JarCall}
    (there : s.aboutOf i = some call) : s'.aboutOf i = some call := by
  cases l with
  | start j about =>
      obtain ⟨free, shared, -, rfl⟩ := System.step_start stepped
      have other : i ≠ j := by
        intro same
        subst same
        simp [Pool.aboutOf, free] at there
      simpa [Pool.aboutOf, Pool.put_task_of_ne s other] using there
  | advance j =>
      obtain ⟨about, op, next, here, rfl⟩ := System.step_advance stepped
      by_cases same : i = j
      · subst same
        simpa [Pool.aboutOf, here] using there
      · simpa [Pool.aboutOf, Pool.put_task_of_ne s same] using there

/-- What a call of the store adds is what it puts, but for last-access times. -/
theorem holds_handle {op : StoreCall} {s : JarState} {fine : Cookie → Prop} {c : Cookie}
    (puts : PutsOnly fine op)
    (holds : (MemoryStore.handle capacity op s).2.store.Holds c) :
    fine c ∨ ∃ d, s.store.Holds d ∧ SameCookie c d := by
  cases op with
  | get domains => exact .inr ⟨c, holds, .refl c⟩
  | all => exact .inr ⟨c, holds, .refl c⟩
  | put cookie now =>
      obtain same | holds := Held.holds_put holds
      · exact .inl (same ▸ puts)
      · exact .inr ⟨c, holds, .refl c⟩
  | remove key => exact .inr ⟨c, Held.holds_remove holds, .refl c⟩
  | touch keys now =>
      obtain ⟨d, holds, same⟩ := Held.holds_touch keys holds
      exact .inr ⟨d, holds, same⟩
  | len => exact .inr ⟨c, holds, .refl c⟩
  | clear => exact absurd holds (Held.not_holds_new c)
  | nextSeq => exact .inr ⟨c, holds, .refl c⟩

theorem allBrought_step {s s' : JarPool ι} {l : Label ι JarCall}
    (residual : (jarSystem jar capacity).Residual s) (brought : AllBrought jar s)
    (stepped : (jarSystem jar capacity).step s l = some s') : AllBrought jar s' := by
  have later : ∀ c, Brought jar s c → Brought jar s' c := by
    intro c h
    obtain ⟨i, call, response, there, accepts⟩ := h
    exact ⟨i, call, response, aboutOf_step stepped there, accepts⟩
  intro c holds
  cases l with
  | start j about =>
      obtain ⟨-, shared, entered, rfl⟩ := System.step_start stepped
      cases entered
      exact later c (brought c holds)
  | advance j =>
      obtain ⟨about, op, next, here, same⟩ := System.step_advance stepped
      obtain ⟨t, steps⟩ := residual j _ here
      have puts := ((about.body_putsOnly jar).steps steps).1
      rw [same] at holds
      obtain ⟨response, accepts⟩ | ⟨d, held, same'⟩ := holds_handle puts holds
      · exact later c ⟨j, about, response, by simp [Pool.aboutOf, here], accepts⟩
      · exact later c ((brought d held).same same')

theorem allBrought_run {s : JarPool ι} {ls : List (Label ι JarCall)}
    (reached : (jarSystem jar capacity).run emptyPool ls = some s) : AllBrought jar s := by
  have kept : ∀ (s : JarPool ι) (l : Label ι JarCall) (s' : JarPool ι), True →
      (jarSystem jar capacity).Residual s ∧ AllBrought jar s →
        (jarSystem jar capacity).step s l = some s' →
          (jarSystem jar capacity).Residual s' ∧ AllBrought jar s' := by
    intro s l s' _ inv stepped
    exact ⟨System.residual_step inv.1 stepped, allBrought_step inv.1 inv.2 stepped⟩
  refine (System.run_preserves kept (System.always_true _ _) ?_ reached).2
  · refine ⟨fun i task there => by simp [emptyPool] at there, ?_⟩
    intro c holds
    exact absurd holds (Held.not_holds_new c)

/-- What `matching` answers in a state is held there and passes its filter. -/
theorem mem_matching {request : Uri} {now : SystemTime} {s : JarState} {c : Cookie}
    (member : c ∈ ((matching request now).runWith (MemoryStore.handle capacity) s).1) :
    s.store.Holds c ∧ ∃ host, canonicalHost request = some host ∧
      applies host (requestPath request) (isSecureRequest request) now c = true := by
  unfold matching at member
  cases canonical : canonicalHost request with
  | none => simp [canonical] at member
  | some host =>
      rw [canonical] at member
      have filtered := List.mem_filter.mp (List.mem_mergeSort.mp member)
      exact ⟨Held.holds_of_mem_get filtered.1, host, rfl, filtered.2⟩

/-- In any state that responses stored in any interleaving lead to, every cookie answered for
a request was accepted from one of them, and its scope covers the request. -/
theorem matching_inScope {s : JarPool ι} {ls : List (Label ι JarCall)}
    (reached : (jarSystem jar capacity).run emptyPool ls = some s) (request : Uri)
    (now : SystemTime) :
    ∀ c ∈ ((matching request now).runWith (MemoryStore.handle capacity) s.shared).1,
      ∃ i call response, s.aboutOf i = some call ∧ call.Accepts jar response c ∧
        InScope jar.suffixes request response c := by
  intro c member
  obtain ⟨holds, host, canonical, passes⟩ := mem_matching member
  obtain ⟨i, call, response, there, accepts⟩ := allBrought_run reached c holds
  obtain ⟨setCookie, time, accepted, offers, prepared, same⟩ := accepts
  exact ⟨i, call, response, there, ⟨setCookie, time, accepted, offers, prepared, same⟩,
    ((prepare_ok prepared).1.same same).inScope canonical passes⟩

end Runs

def comList : PublicSuffixList := ⟨fun domain => domain = "com".toList, true⟩

def httpsUri (host : String) : Uri := ⟨some .https, some ⟨none, host.toList, none⟩, none⟩

/-- One response of `www.example.com` that sets a cookie for its whole domain. -/
def sharedCookie : List (Label Nat JarCall) :=
  [.start 0 (.store (httpsUri "www.example.com")
      (.ofAscii "sid=abc; Domain=example.com; Secure") .unixEpoch),
    .advance 0, .advance 0, .advance 0]

theorem matching_inScope_sibling :
    let s := (jarSystem ⟨.default, comList⟩ .default).after emptyPool sharedCookie
    let answered := ((matching (httpsUri "api.example.com") .unixEpoch).runWith
      (MemoryStore.handle .default) s.shared).1
    answered.map Cookie.name = ["sid".toList] ∧
      ∀ c ∈ answered, ∃ i call response, s.aboutOf i = some call ∧
        call.Accepts ⟨.default, comList⟩ response c ∧
        InScope comList (httpsUri "api.example.com") response c :=
  ⟨by decide +kernel, matching_inScope (System.run_eq_after (by decide +kernel)) _ _⟩

end HClient.Cookies
