import HClient.Cookies.Alike

/-!
# A response at once, or a cookie at a time

`store_response` asks the store once and resolves every cookie of the response against that
answer and what it has placed itself. It does what a `store` for each would do, except where
a cookie comes after the store has lost the one that the answer or the response still has.
-/
namespace HClient.Cookies

open Effect CookieJar

/-- One `store` after another, whatever each answers. -/
def CookieJar.storeEach (jar : CookieJar) (uri : Uri) (now : SystemTime) :
    List HeaderValue → Script Unit
  | [] => pure ()
  | v :: rest => (jar.store uri v now).bind fun _ => jar.storeEach uri now rest

/-- What `store` does with the cookies that are not refused. -/
def insertEach (now : SystemTime) : List Cookie → Script Unit
  | [] => pure ()
  | cookie :: rest => (insert cookie now).bind fun _ => insertEach now rest

section
variable {jar : CookieJar} {capacity : Capacity} {now : SystemTime}

theorem onJar_bind_unit {α : Type} (p : Script α) (next : Script Unit) (s : JarState) :
    (onJar capacity (p.bind fun _ => next) s).2 =
      (onJar capacity next (onJar capacity p s).2).2 := by
  unfold onJar
  rw [Program.runWith_bind]

theorem storeEach_insertEach (uri : Uri) (values : List HeaderValue) (s : JarState) :
    (onJar capacity (jar.storeEach uri now values) s).2 =
      (onJar capacity (insertEach now
        (values.filterMap fun v => (jar.prepare uri v now).toOption)) s).2 := by
  induction values generalizing s with
  | nil => rfl
  | cons v rest ih =>
      rw [CookieJar.storeEach, onJar_bind_unit, ih, List.filterMap_cons]
      unfold CookieJar.store
      cases jar.prepare uri v now with
      | error e => rfl
      | ok cookie =>
          simp only [Except.toOption, onJar_ignore]
          rw [insertEach, onJar_bind_unit]

theorem insertEach_append (early later : List Cookie) (s : JarState) :
    (onJar capacity (insertEach now (early ++ later)) s).2 =
      (onJar capacity (insertEach now later) (onJar capacity (insertEach now early) s).2).2 := by
  induction early generalizing s with
  | nil => rfl
  | cons cookie early ih =>
      rw [List.cons_append, insertEach, onJar_bind_unit, ih, insertEach, onJar_bind_unit]

theorem insertEach_snoc (early : List Cookie) (cookie : Cookie) (s : JarState) :
    (onJar capacity (insertEach now (early ++ [cookie])) s).2 =
      (onJar capacity (insert cookie now) (onJar capacity (insertEach now early) s).2).2 := by
  rw [insertEach_append, insertEach, onJar_bind_unit]
  rfl

/-- One of the cookies has the key. -/
def HasKey (key : CookieKey) (cookies : List Cookie) : Prop :=
  ∃ c ∈ cookies, CookieKey.of c = key

instance (key : CookieKey) (cookies : List Cookie) : Decidable (HasKey key cookies) :=
  inferInstanceAs (Decidable (∃ c ∈ cookies, _))

/-- A live cookie of the response whose key was held before it, or came earlier in it, finds
the key in the store when the cookies before it have been stored: none of them deleted,
outlived or evicted it. -/
def NoneLost (capacity : Capacity) (now : SystemTime) (s : JarState) (arriving : List Cookie) :
    Prop :=
  ∀ n < arriving.length, ∀ cookie ∈ arriving[n]?, cookie.isExpired now = false →
    HasKey (CookieKey.of cookie) (arriving.take n ++ s.store.under cookie.domain) →
      HasKey (CookieKey.of cookie)
        ((onJar capacity (insertEach now (arriving.take n)) s).2.store.under cookie.domain)

instance (capacity : Capacity) (now : SystemTime) (s : JarState) (arriving : List Cookie) :
    Decidable (NoneLost capacity now s arriving) :=
  inferInstanceAs (Decidable (∀ n < arriving.length, ∀ cookie ∈ arriving[n]?, _))

theorem hasKey_of_find {key : CookieKey} {cookies : List Cookie} {c : Cookie}
    (found : cookies.find? (fun c => CookieKey.of c = key) = some c) :
    c ∈ cookies ∧ CookieKey.of c = key :=
  ⟨List.mem_of_find?_eq_some found, of_decide_eq_true (List.find?_some found :)⟩

theorem not_hasKey_of_find {key : CookieKey} {cookies : List Cookie}
    (missing : cookies.find? (fun c => CookieKey.of c = key) = none) : ¬ HasKey key cookies := by
  intro h
  obtain ⟨c, member, same⟩ := h
  exact List.find?_eq_none.mp missing c member (decide_eq_true same)

/-- An expired cookie deletes by its key, whatever else it says. -/
theorem put_expired {c d : Cookie} (h : Held) (same : CookieKey.of c = CookieKey.of d)
    (expired : c.isExpired now = true) (expired' : d.isExpired now = true) :
    h.put capacity c now = h.put capacity d now := by
  unfold Held.put
  simp only [expired, expired', if_true, same]

/-- The loop of the response in `b` and the single stores in `q` are as far as each other: what
is still held the response knows, with its creation time and its place. -/
structure Abreast (f : Nat → Nat) (held placed : List Cookie) (domains : List Text)
    (b q : JarState) : Prop where
  related : Renumbered f b q
  counted : ∀ y ∈ placed ++ held, y.seq < b.nextSeq
  agrees : ∀ x, b.store.Holds x → ∀ y ∈ placed ++ held, CookieKey.of y = CookieKey.of x →
    y.creation = x.creation ∧ y.seq = x.seq
  knows : ∀ x, b.store.Holds x → x.domain ∈ domains → HasKey (CookieKey.of x) (placed ++ held)

variable {f : Nat → Nat} {held placed : List Cookie} {domains : List Text} {b q : JarState}
  {cookie : Cookie}

/-- What the response puts it knows from then on. -/
theorem Abreast.placed_one (abreast : Abreast f held placed domains b q) {g : Nat → Nat}
    {q' : JarState} (kept : Cookie × Nat) (drawn : kept.1.seq < kept.2)
    (grows : b.nextSeq ≤ kept.2)
    (fits : kept.1.isExpired now = false → ∀ y ∈ placed ++ held,
      CookieKey.of y = CookieKey.of kept.1 → y.creation = kept.1.creation ∧ y.seq = kept.1.seq)
    (related : Renumbered g (b.accept capacity now kept) q') :
    Abreast g held (placed ++ [kept.1]) domains (b.accept capacity now kept) q' := by
  have split : ∀ y, y ∈ placed ++ [kept.1] ++ held ↔ y ∈ placed ++ held ∨ y = kept.1 := by
    intro y
    simp only [List.mem_append, List.mem_singleton]
    tauto
  have stored : ∀ x, (b.accept capacity now kept).store.Holds x →
      (b.store.Holds x ∧ CookieKey.of x ≠ CookieKey.of kept.1) ∨
        (x = kept.1 ∧ kept.1.isExpired now = false) := by
    intro x holds
    obtain ⟨domain, member⟩ := holds
    obtain ⟨there, differ⟩ | ⟨-, same, lives⟩ :=
      Held.of_mem_put abreast.related.numbered.wellFormed member
    · exact .inl ⟨⟨domain, there⟩, differ⟩
    · exact .inr ⟨same, lives⟩
  refine ⟨related, fun y member => ?_, fun x holds y member same => ?_, fun x holds inside => ?_⟩
  · rcases (split y).mp member with early | rfl
    · exact Nat.lt_of_lt_of_le (abreast.counted y early) grows
    · exact drawn
  · rcases stored x holds with ⟨before, differ⟩ | ⟨rfl, lives⟩
    · rcases (split y).mp member with early | rfl
      · exact abreast.agrees x before y early same
      · exact absurd same.symm differ
    · rcases (split y).mp member with early | rfl
      · exact fits lives y early same
      · exact ⟨rfl, rfl⟩
  · rcases stored x holds with ⟨before, -⟩ | ⟨rfl, -⟩
    · obtain ⟨y, member, same⟩ := abreast.knows x before inside
      exact ⟨y, (split y).mpr (.inl member), same⟩
    · exact ⟨_, (split _).mpr (.inr rfl), rfl⟩

/-- One cookie in both: where the key is known and lost, the cookie only deletes. -/
theorem Abreast.step (abreast : Abreast f held placed domains b q) (capacity : Capacity)
    (inside : cookie.domain ∈ domains)
    (unlost : cookie.isExpired now = false → HasKey (CookieKey.of cookie) (placed ++ held) →
      HasKey (CookieKey.of cookie) (q.store.under cookie.domain)) : ∃ g,
    Abreast g held
      (placed ++ [(settled .setCookie ((placed ++ held).find?
        fun c => CookieKey.of c = CookieKey.of cookie) cookie b.nextSeq).1]) domains
      (b.accept capacity now (settled .setCookie ((placed ++ held).find?
        fun c => CookieKey.of c = CookieKey.of cookie) cookie b.nextSeq))
      (onJar capacity (insert cookie now) q).2 := by
  have related := abreast.related
  rw [← insertAs_setCookie, insertAs_accept, related.get, Renumbered.find_key]
  have single : b.store.get [cookie.domain] = b.store.under cookie.domain := by
    simp [Held.get]
  rw [single]
  cases looked : (placed ++ held).find? fun c => CookieKey.of c = CookieKey.of cookie with
  | none =>
      have unknown := not_hasKey_of_find looked
      have unheld : (b.store.under cookie.domain).find?
          (fun c => CookieKey.of c = CookieKey.of cookie) = none := by
        cases other : (b.store.under cookie.domain).find?
            fun c => CookieKey.of c = CookieKey.of cookie with
        | none => rfl
        | some x =>
            obtain ⟨there, same⟩ := hasKey_of_find other
            have domain : x.domain = cookie.domain := congrArg CookieKey.domain same
            exact absurd (same ▸ abreast.knows x ⟨_, there⟩ (domain ▸ inside)) unknown
      rw [unheld]
      have known : ∀ old ∈ (none : Option Cookie), old.seq < b.nextSeq :=
        fun old same => by cases same
      obtain ⟨g, both, -⟩ := related.settle capacity now .setCookie none known cookie
      refine ⟨g, abreast.placed_one _ (Nat.lt_succ_self _) (Nat.le_succ _) ?_ both⟩
      intro _ y member same
      exact absurd ⟨y, member, same⟩ unknown
  | some y =>
      obtain ⟨member, key⟩ := hasKey_of_find looked
      have known : ∀ old ∈ some y, old.seq < b.nextSeq := by
        intro old same
        cases same
        exact abreast.counted y member
      have counted := settled_counted .setCookie known cookie
      cases other : (b.store.under cookie.domain).find?
          fun c => CookieKey.of c = CookieKey.of cookie with
      | some x =>
          obtain ⟨there, same⟩ := hasKey_of_find other
          have fits := abreast.agrees x ⟨_, there⟩
          have alike : settled .setCookie (some y) cookie b.nextSeq =
              settled .setCookie (some x) cookie b.nextSeq := by
            obtain ⟨creation, seq⟩ := fits y member (key.trans same.symm)
            simp [settled, Arrival.settle, creation, seq]
          rw [alike] at counted ⊢
          have drawn : ∀ old ∈ some x, old.seq < b.nextSeq := by
            intro old same
            cases same
            exact related.numbered.drawn x ⟨_, there⟩
          obtain ⟨g, both, -⟩ := related.settle capacity now .setCookie _ drawn cookie
          refine ⟨g, abreast.placed_one _ counted.1 counted.2 ?_ both⟩
          intro _ y' member' same'
          exact fits y' member' (same'.trans same.symm)
      | none =>
          have dead : cookie.isExpired now = true := by
            by_contra lives
            have lost := not_hasKey_of_find other
            obtain ⟨x, there, same⟩ := unlost (Bool.not_eq_true _ ▸ lives) ⟨y, member, key⟩
            rw [related.store, Held.under_renumber] at there
            obtain ⟨z, held, rfl⟩ := List.mem_map.mp there
            exact lost ⟨z, held, same⟩
          let kept := settled .setCookie (some y) cookie b.nextSeq
          have dead' : kept.1.isExpired now = true := dead
          have deletes : q.store.put capacity (kept.1.renumber f) now =
              q.store.put capacity { cookie with seq := q.nextSeq } now :=
            put_expired _ rfl dead' dead
          have both := (related.put capacity now kept.1 counted.1).skip
          rw [deletes] at both
          refine ⟨f, abreast.placed_one kept counted.1 counted.2 ?_ both⟩
          intro lives
          rw [dead'] at lives
          cases lives

/-- The whole loop: after the same cookies, what is left leads both to the same. -/
theorem Abreast.run {s : JarState} (wellFormed : s.store.WellFormed) (rest : List Cookie)
    {early : List Cookie} (abreast : Abreast f (s.store.get domains) placed domains b
      (onJar capacity (insertEach now early) s).2)
    (keys : placed.map CookieKey.of = early.map CookieKey.of)
    (inside : ∀ c ∈ rest, c.domain ∈ domains)
    (unlost : NoneLost capacity now s (early ++ rest)) : ∃ g,
    Renumbered g (onJar capacity (place (s.store.get domains) now placed rest) b).2
      (onJar capacity (insertEach now (early ++ rest)) s).2 := by
  induction rest generalizing f placed b early with
  | nil =>
      rw [List.append_nil]
      exact ⟨f, abreast.related⟩
  | cons cookie rest ih =>
      have known : HasKey (CookieKey.of cookie) (placed ++ s.store.get domains) →
          HasKey (CookieKey.of cookie) (early ++ s.store.under cookie.domain) := by
        intro h
        obtain ⟨y, member, same⟩ := h
        rcases List.mem_append.mp member with before | found
        · have listed : CookieKey.of cookie ∈ early.map CookieKey.of := by
            rw [← keys, ← same]
            exact List.mem_map_of_mem before
          obtain ⟨z, there, same'⟩ := List.mem_map.mp listed
          exact ⟨z, List.mem_append_left _ there, same'⟩
        · obtain ⟨domain, -, under⟩ := Held.mem_get.mp found
          have own : domain = cookie.domain := by
            rw [← wellFormed.domains domain y under]
            exact congrArg CookieKey.domain same
          exact ⟨y, List.mem_append_right _ (own ▸ under), same⟩
      have here : (early ++ cookie :: rest)[early.length]? = some cookie := by simp
      have before : (early ++ cookie :: rest).take early.length = early := by simp
      have short : early.length < (early ++ cookie :: rest).length := by simp
      have still := unlost early.length short cookie here
      rw [before] at still
      obtain ⟨g, next⟩ := abreast.step capacity (inside cookie List.mem_cons_self)
        fun lives h => still lives (known h)
      have split : early ++ cookie :: rest = early ++ [cookie] ++ rest :=
        List.append_cons early cookie rest
      rw [split] at unlost ⊢
      rw [place_accept]
      rw [← insertEach_snoc] at next
      refine ih next ?_ (fun c member => inside c (List.mem_cons_of_mem _ member)) unlost
      rw [List.map_append, List.map_append, keys, List.map_singleton, List.map_singleton,
        settled_key]

/-- Before the first cookie both are where the response found the store. -/
theorem Numbered.abreast {s : JarState} (numbered : Numbered s) (domains : List Text) :
    Abreast id (s.store.get domains) [] domains s s := by
  have own : ∀ y ∈ s.store.get domains, s.store.Holds y :=
    fun y member => Held.holds_of_mem_get member
  refine ⟨numbered.renumbered, fun y member => numbered.drawn y (own y member), ?_, ?_⟩
  · intro x holds y member same
    obtain ⟨domain, there⟩ := holds
    obtain ⟨domain', there'⟩ := own y member
    have eq := numbered.wellFormed.eq_of_key there' there same
    exact ⟨congrArg Cookie.creation eq, congrArg Cookie.seq eq⟩
  · intro x holds inside
    obtain ⟨domain, there⟩ := holds
    rw [numbered.wellFormed.domains domain x there] at inside
    exact ⟨x, Held.mem_get.mpr ⟨domain, inside, there⟩, rfl⟩

/-- In every state a jar can be in, a response stored at once leaves a jar that cannot be told
from one that stored its cookies one by one, unless a live cookie comes for one that the
response before it deleted, outlived or evicted. -/
theorem storeResponse_asEach {ι : Type} [DecidableEq ι] {s : WorkPool ι}
    {ls : List (Label ι JarWork)}
    (reached : (workSystem jar capacity).run idleJar ls = some s) (uri : Uri)
    (headers : HeaderMap HeaderValue) (now : SystemTime)
    (unlost : NoneLost capacity now s.shared (jar.arriving uri headers now)) :
    ObservablyEqual jar capacity
      (onJar capacity (jar.storeResponse uri headers now) s.shared).2
      (onJar capacity (jar.storeEach uri now (headers.getAll setCookieName)) s.shared).2 := by
  have numbered := numbered_run reached
  have inside : ∀ c ∈ jar.arriving uri headers now,
      c.domain ∈ sortedDomains (jar.arriving uri headers now) := by
    intro c member
    exact List.mem_dedup.mpr (List.mem_mergeSort.mpr (List.mem_map_of_mem member))
  rw [storeResponse_place, storeEach_insertEach]
  have start : Abreast id (s.shared.store.get (sortedDomains (jar.arriving uri headers now))) []
      (sortedDomains (jar.arriving uri headers now)) s.shared
      (onJar capacity (insertEach now []) s.shared).2 := numbered.abreast _
  obtain ⟨g, both⟩ := start.run numbered.wellFormed _ rfl inside unlost
  exact both.observablyEqual jar

end

section Example

/-- A response with these cookies. -/
def answering (cookies : List String) : HeaderMap HeaderValue :=
  cookies.map fun c => (setCookieName, .ofAscii c)

/-- A jar with one cookie of the host. -/
def holdingOne : List (Label Nat JarWork) :=
  [.start 0 (.call (.store (httpsUri "www.example.com") (.ofAscii "a=0") .unixEpoch)),
    .advance 0, .advance 0, .advance 0]

/-- The cookie held is deleted twice, another is set twice. -/
theorem storeResponse_asEach_repeats :
    let s := (workSystem aJar .default).after idleJar holdingOne
    let headers := answering ["a=; Max-Age=0", "b=1", "a=; Max-Age=0", "b=2"]
    ObservablyEqual aJar .default
      (onJar .default
        (aJar.storeResponse (httpsUri "www.example.com") headers .unixEpoch) s.shared).2
      (onJar .default (aJar.storeEach (httpsUri "www.example.com") .unixEpoch
        (headers.getAll setCookieName)) s.shared).2 :=
  storeResponse_asEach (System.run_eq_after (by decide +kernel)) _ _ _ (by decide +kernel)

/-- The names of what a jar answers to its host. -/
def namesAnswered (s : JarState) : List Text :=
  (onJar .default (matching (httpsUri "www.example.com") .unixEpoch) s).1.map Cookie.name

def afterResponse (headers : HeaderMap HeaderValue) : JarState :=
  (onJar .default (aJar.storeResponse (httpsUri "www.example.com") headers .unixEpoch)
    JarState.new).2

def afterEach (headers : HeaderMap HeaderValue) : JarState :=
  (onJar .default (aJar.storeEach (httpsUri "www.example.com") .unixEpoch
    (headers.getAll setCookieName)) JarState.new).2

/-- A cookie that the response deletes and sets again keeps the place it had, as if it had not
been deleted: one by one it comes last. -/
theorem deleted_cookie_keeps_place :
    let headers := answering ["a=1; Max-Age=0", "b=2", "a=3"]
    namesAnswered (afterResponse headers) = ["a".toList, "b".toList] ∧
      namesAnswered (afterEach headers) = ["b".toList, "a".toList] ∧
      ¬ ObservablyEqual aJar .default (afterResponse headers) (afterEach headers) := by
  intro headers
  have unheld : ∀ domains, JarState.new.store.get domains = [] :=
    fun domains => List.flatMap_eq_nil_iff.mpr fun _ _ => rfl
  have together : afterResponse headers = (onJar .default
      (place [] .unixEpoch [] (aJar.arriving (httpsUri "www.example.com") headers .unixEpoch))
      JarState.new).2 := by
    rw [afterResponse, storeResponse_place, unheld]
  have first : namesAnswered (afterResponse headers) = ["a".toList, "b".toList] := by
    rw [together]
    exact (map_name_mergeSort (by decide +kernel)).trans (by decide +kernel)
  have second : namesAnswered (afterEach headers) = ["b".toList, "a".toList] :=
    (map_name_mergeSort (by decide +kernel)).trans (by decide +kernel)
  refine ⟨first, second, fun equal => ?_⟩
  have answered := congrArg (fun told => told.1.map Cookie.name)
    (equal [] (httpsUri "www.example.com") .unixEpoch)
  simp only [told, List.map_map] at answered
  have same : namesAnswered (afterResponse headers) = namesAnswered (afterEach headers) := answered
  rw [first, second] at same
  revert same
  decide

end Example
end HClient.Cookies
