import HClient.Cookies.Flat
import HClient.Cookies.Numbered

/-!
# Jars that cannot be told apart

Two jars that hold the same cookies in the same order answer alike, whatever is done with them,
even where their counters drew different places.
-/
namespace HClient.Cookies

open Effect CookieJar

/-- `t` holds the cookies of `s` with their places changed by `f`. -/
structure Renumbered (f : Nat → Nat) (s t : JarState) : Prop where
  mono : StrictMono f
  store : t.store = s.store.renumber f
  ahead : ∀ n < s.nextSeq, f n < t.nextSeq
  numbered : Numbered s

theorem Numbered.renumbered {s : JarState} (numbered : Numbered s) : Renumbered id s s := by
  refine ⟨strictMono_id, ?_, fun n below => below, numbered⟩
  have same : s.store.byDomain = s.store.byDomain.mapValues (List.map (Cookie.renumber id)) := by
    refine AList.ext ?_
    rw [Table.entries_mapValues]
    refine (List.map_id'' (fun e => ?_) _).symm
    have cookies : e.2.map (Cookie.renumber id) = e.2 := List.map_id'' (fun _ => rfl) _
    rw [cookies]
  exact congrArg (fun table => Held.mk table s.store.held) same

/-- Only the places that cookies have matter. -/
theorem Held.renumber_congr {f g : Nat → Nat} {h : Held}
    (same : ∀ c, h.Holds c → f c.seq = g c.seq) : h.renumber f = h.renumber g := by
  refine congrArg (fun table => Held.mk table h.held) (AList.ext ?_)
  rw [Table.entries_mapValues, Table.entries_mapValues]
  refine List.map_congr_left fun e there => ?_
  have cookies : e.2.map (Cookie.renumber f) = e.2.map (Cookie.renumber g) := by
    refine List.map_congr_left fun c member => Cookie.renumber_congr (same c ⟨e.1, ?_⟩)
    exact Held.mem_under.mpr ⟨e.2, (Table.mem_entries_iff _).mp there, member⟩
  rw [cookies]

/-- A cookie with what it keeps of the one found, or with the next place, and the counter then. -/
def settled (arrival : Arrival) (found : Option Cookie) (cookie : Cookie) (next : Nat) :
    Cookie × Nat :=
  match found with
  | some old => ({ arrival.settle old cookie with seq := old.seq }, next)
  | none => ({ cookie with seq := next }, next + 1)

theorem settled_key (arrival : Arrival) (found : Option Cookie) (cookie : Cookie) (next : Nat) :
    CookieKey.of (settled arrival found cookie next).1 = CookieKey.of cookie := by
  cases found <;> cases arrival <;> rfl

theorem settled_counted (arrival : Arrival) {found : Option Cookie} {next : Nat}
    (known : ∀ old ∈ found, old.seq < next) (cookie : Cookie) :
    (settled arrival found cookie next).1.seq < (settled arrival found cookie next).2 ∧
      next ≤ (settled arrival found cookie next).2 := by
  cases found with
  | none => exact ⟨Nat.lt_succ_self _, Nat.le_succ _⟩
  | some old => exact ⟨known old rfl, Nat.le_refl _⟩

/-- A settled cookie put into the store. -/
def JarState.accept (capacity : Capacity) (now : SystemTime) (s : JarState)
    (cookie : Cookie × Nat) : JarState :=
  ⟨s.store.put capacity cookie.1 now, cookie.2⟩

theorem insertAs_accept (capacity : Capacity) (arrival : Arrival) (cookie : Cookie)
    (now : SystemTime) (s : JarState) : (onJar capacity (insertAs arrival cookie now) s).2 =
      s.accept capacity now (settled arrival ((s.store.get [cookie.domain]).find?
        fun c => CookieKey.of c = CookieKey.of cookie) cookie s.nextSeq) := by
  rw [insertAs_run]
  cases (s.store.get [cookie.domain]).find? fun c => CookieKey.of c = CookieKey.of cookie <;> rfl

theorem place_accept (capacity : Capacity) (held placed : List Cookie) (cookie : Cookie)
    (rest : List Cookie) (now : SystemTime) (s : JarState) :
    (onJar capacity (place held now placed (cookie :: rest)) s).2 =
      (onJar capacity (place held now (placed ++ [(settled .setCookie ((placed ++ held).find?
          fun c => CookieKey.of c = CookieKey.of cookie) cookie s.nextSeq).1]) rest)
        (s.accept capacity now (settled .setCookie ((placed ++ held).find?
          fun c => CookieKey.of c = CookieKey.of cookie) cookie s.nextSeq))).2 := by
  have turn : place held now placed (cookie :: rest) =
      (resolve (placed ++ held) cookie).bind fun cookie =>
        (ask (.put cookie now)).bind fun _ => place held now (placed ++ [cookie]) rest := rfl
  rw [turn]
  unfold resolve
  cases (placed ++ held).find? fun c => CookieKey.of c = CookieKey.of cookie <;> rfl

namespace Renumbered
variable {f : Nat → Nat} {s t : JarState} {capacity : Capacity} {now : SystemTime}

theorem put (related : Renumbered f s t) (capacity : Capacity) (now : SystemTime)
    (cookie : Cookie) (drawn : cookie.seq < s.nextSeq) :
    Renumbered f ⟨s.store.put capacity cookie now, s.nextSeq⟩
      ⟨t.store.put capacity (cookie.renumber f) now, t.nextSeq⟩ := by
  refine ⟨related.mono, ?_, related.ahead,
    related.numbered.put capacity (Nat.le_refl _) drawn⟩
  rw [related.store]
  exact Held.put_renumber _ related.mono _ _ _

theorem touch (related : Renumbered f s t) (keys : List CookieKey) :
    Renumbered f { s with store := s.store.touch keys now }
      { t with store := t.store.touch keys now } := by
  refine ⟨related.mono, ?_, related.ahead, related.numbered.touch keys now⟩
  rw [related.store]
  exact Held.touch_renumber _ _ _

/-- One jar draws a place that it does not use. -/
theorem skip (related : Renumbered f s t) : Renumbered f s { t with nextSeq := t.nextSeq + 1 } :=
  ⟨related.mono, related.store, fun n below => Nat.lt_succ_of_lt (related.ahead n below),
    related.numbered⟩

/-- Both jars draw a place, each its own. -/
theorem draw (related : Renumbered f s t) : ∃ g,
    Renumbered g { s with nextSeq := s.nextSeq + 1 } { t with nextSeq := t.nextSeq + 1 } ∧
      g s.nextSeq = t.nextSeq ∧ ∀ n < s.nextSeq, g n = f n := by
  let g := fun n => if n < s.nextSeq then f n else t.nextSeq + (n - s.nextSeq)
  have early : ∀ n < s.nextSeq, g n = f n := fun n below => if_pos below
  have late : ∀ n, s.nextSeq ≤ n → g n = t.nextSeq + (n - s.nextSeq) :=
    fun n le => if_neg (Nat.not_lt.mpr le)
  have next : g s.nextSeq = t.nextSeq := by
    rw [late _ (Nat.le_refl _), Nat.sub_self, Nat.add_zero]
  have mono : StrictMono g := by
    intro a b lt
    rcases Nat.lt_or_ge b s.nextSeq with below | above
    · rw [early a (Nat.lt_trans lt below), early b below]
      exact related.mono lt
    rcases Nat.lt_or_ge a s.nextSeq with below | above'
    · rw [early a below, late b above]
      exact Nat.lt_of_lt_of_le (related.ahead a below) (Nat.le_add_right _ _)
    · rw [late a above', late b above]
      omega
  refine ⟨g, ⟨mono, ?_, ?_, ?_⟩, next, early⟩
  · rw [related.store]
    exact Held.renumber_congr fun c holds =>
      (early c.seq (related.numbered.drawn c holds)).symm
  · intro n below
    rcases Nat.lt_succ_iff_lt_or_eq.mp below with earlier | rfl
    · rw [early n earlier]
      exact Nat.lt_succ_of_lt (related.ahead n earlier)
    · rw [next]
      exact Nat.lt_succ_self _
  · exact ⟨related.numbered.wellFormed, fun c holds =>
      Nat.lt_succ_of_lt (related.numbered.drawn c holds)⟩

theorem get (related : Renumbered f s t) (domains : List Text) :
    t.store.get domains = (s.store.get domains).map (Cookie.renumber f) := by
  rw [related.store]
  exact Held.get_renumber _ _

theorem find_key {l : List Cookie} (key : CookieKey) :
    (l.map (Cookie.renumber f)).find? (fun c => CookieKey.of c = key) =
      (l.find? fun c => CookieKey.of c = key).map (Cookie.renumber f) := by
  rw [List.find?_map]
  rfl

/-- Both jars settle the same cookie by what each of them found, and put it. -/
theorem settle (related : Renumbered f s t) (capacity : Capacity) (now : SystemTime)
    (arrival : Arrival) (found : Option Cookie) (known : ∀ old ∈ found, old.seq < s.nextSeq)
    (cookie : Cookie) : ∃ g,
    Renumbered g (s.accept capacity now (settled arrival found cookie s.nextSeq))
        (t.accept capacity now
          (settled arrival (found.map (Cookie.renumber f)) cookie t.nextSeq)) ∧
      (settled arrival (found.map (Cookie.renumber f)) cookie t.nextSeq).1 =
        (settled arrival found cookie s.nextSeq).1.renumber g ∧
      ∀ n < s.nextSeq, g n = f n := by
  cases found with
  | none =>
      obtain ⟨g, drawn, next, early⟩ := related.draw
      have place : ({ cookie with seq := t.nextSeq } : Cookie) =
          ({ cookie with seq := s.nextSeq } : Cookie).renumber g := by
        simp [Cookie.renumber, next]
      have both := drawn.put capacity now { cookie with seq := s.nextSeq } (Nat.lt_succ_self _)
      rw [← place] at both
      exact ⟨g, both, place, early⟩
  | some old =>
      have place : ({ arrival.settle (old.renumber f) cookie with seq := f old.seq } : Cookie) =
          ({ arrival.settle old cookie with seq := old.seq } : Cookie).renumber f := by
        cases arrival <;> rfl
      have both := related.put capacity now { arrival.settle old cookie with seq := old.seq }
        (known old rfl)
      rw [← place] at both
      exact ⟨f, both, place, fun _ _ => rfl⟩

theorem insertAs (related : Renumbered f s t) (arrival : Arrival) (cookie : Cookie) : ∃ g,
    Renumbered g (onJar capacity (CookieJar.insertAs arrival cookie now) s).2
      (onJar capacity (CookieJar.insertAs arrival cookie now) t).2 := by
  rw [insertAs_accept, insertAs_accept, related.get, find_key]
  have known : ∀ old ∈ (s.store.get [cookie.domain]).find?
      (fun c => CookieKey.of c = CookieKey.of cookie), old.seq < s.nextSeq := by
    intro old found
    exact related.numbered.drawn old (Held.holds_of_mem_get (List.mem_of_find?_eq_some found))
  obtain ⟨g, both, -⟩ := related.settle capacity now arrival _ known cookie
  exact ⟨g, both⟩

theorem map_renumber_congr {g : Nat → Nat} {n : Nat} {l : List Cookie}
    (below : ∀ c ∈ l, c.seq < n) (early : ∀ k < n, g k = f k) :
    l.map (Cookie.renumber f) = l.map (Cookie.renumber g) :=
  List.map_congr_left fun c member => Cookie.renumber_congr (early _ (below c member)).symm

theorem place (related : Renumbered f s t) (cookies : List Cookie) {placed held : List Cookie}
    (below : ∀ c ∈ placed ++ held, c.seq < s.nextSeq) : ∃ g,
    Renumbered g (onJar capacity (CookieJar.place held now placed cookies) s).2
      (onJar capacity (CookieJar.place (held.map (Cookie.renumber f)) now
        (placed.map (Cookie.renumber f)) cookies) t).2 := by
  induction cookies generalizing f s t placed with
  | nil => exact ⟨f, related⟩
  | cons cookie rest ih =>
      rw [place_accept, place_accept, ← List.map_append, find_key]
      generalize lookedUp : (placed ++ held).find?
        (fun c => CookieKey.of c = CookieKey.of cookie) = found
      have known : ∀ old ∈ found, old.seq < s.nextSeq :=
        fun old member => below old (List.mem_of_find?_eq_some (lookedUp.trans member))
      obtain ⟨g, both, place, early⟩ := related.settle capacity now .setCookie _ known cookie
      have heldSame := map_renumber_congr
        (fun c member => below c (List.mem_append_right placed member)) early
      have placedSame := map_renumber_congr
        (fun c member => below c (List.mem_append_left held member)) early
      have joined : placed.map (Cookie.renumber g) ++
          [(settled .setCookie found cookie s.nextSeq).1.renumber g] =
            (placed ++ [(settled .setCookie found cookie s.nextSeq).1]).map (Cookie.renumber g) := by
        rw [List.map_append, List.map_singleton]
      rw [place, heldSame, placedSame, joined]
      refine ih both fun c member => ?_
      have counted := settled_counted .setCookie known cookie
      rw [List.append_assoc] at member
      rcases List.mem_append.mp member with before | later
      · exact Nat.lt_of_lt_of_le (below c (List.mem_append_left _ before)) counted.2
      rcases List.mem_append.mp later with single | after
      · exact List.mem_singleton.mp single ▸ counted.1
      · exact Nat.lt_of_lt_of_le (below c (List.mem_append_right _ after)) counted.2

theorem goesBefore_renumber (mono : StrictMono f) (a b : Cookie) :
    goesBefore (a.renumber f) (b.renumber f) = goesBefore a b := by
  simp [goesBefore, Cookie.renumber, mono.le_iff_le]

theorem matching (related : Renumbered f s t) (uri : Uri) :
    (onJar capacity (CookieJar.matching uri now) t).1 =
      (onJar capacity (CookieJar.matching uri now) s).1.map (Cookie.renumber f) := by
  unfold CookieJar.matching
  cases canonicalHost uri with
  | none => rfl
  | some host =>
      let passes := applies host (requestPath uri) (isSecureRequest uri) now
      change ((t.store.get (candidateDomains host)).filter passes).mergeSort goesBefore =
        (((s.store.get (candidateDomains host)).filter passes).mergeSort goesBefore).map
          (Cookie.renumber f)
      rw [related.get, List.filter_map,
        List.map_mergeSort fun a _ b _ => (goesBefore_renumber related.mono a b).symm]
      rfl

theorem all (related : Renumbered f s t) :
    t.store.all = s.store.all.map (Cookie.renumber f) := by
  have order : ∀ a b : Cookie, decide (a.seq ≤ b.seq) =
      decide ((a.renumber f).seq ≤ (b.renumber f).seq) :=
    fun a b => decide_eq_decide.mpr related.mono.le_iff_le.symm
  unfold Held.all
  rw [related.store, Held.entries_renumber,
    List.map_mergeSort (s := fun a b => decide (a.seq ≤ b.seq)) fun a _ b _ => order a b,
    List.map_map, List.map_map]
  rfl

end Renumbered

theorem matching_reads (capacity : Capacity) (uri : Uri) (now : SystemTime) (s : JarState) :
    (onJar capacity (matching uri now) s).2 = s := by
  unfold onJar matching
  split <;> rfl

theorem cookieHeader_onJar (capacity : Capacity) (uri : Uri) (now : SystemTime) (s : JarState) :
    onJar capacity (cookieHeader uri now) s =
      if (onJar capacity (matching uri now) s).1 = [] then (none, s)
      else (headerValueOf (headerBytes (onJar capacity (matching uri now) s).1),
        { s with store :=
          s.store.touch ((onJar capacity (matching uri now) s).1.map CookieKey.of) now }) := by
  have reads := matching_reads capacity uri now s
  unfold onJar cookieHeader at *
  rw [Program.runWith_bind, reads]
  split <;> rfl

theorem onJar_ignore {α β : Type} (capacity : Capacity) (p : Script α) (b : β) (s : JarState) :
    (onJar capacity (p.bind fun _ => pure b) s).2 = (onJar capacity p s).2 := by
  unfold onJar
  rw [Program.runWith_bind]
  rfl

/-- A response is one question to the store and then the loop over its cookies. -/
theorem storeResponse_place (jar : CookieJar) (capacity : Capacity) (uri : Uri)
    (headers : HeaderMap HeaderValue) (now : SystemTime) (s : JarState) :
    (onJar capacity (jar.storeResponse uri headers now) s).2 =
      (onJar capacity (place (s.store.get (sortedDomains (jar.arriving uri headers now))) now []
        (jar.arriving uri headers now)) s).2 := by
  unfold CookieJar.storeResponse
  generalize jar.arriving uri headers now = arriving
  cases arriving with
  | nil => rfl
  | cons cookie rest =>
      have asked : (onJar capacity (place (s.store.get (sortedDomains (cookie :: rest))) now []
          (cookie :: rest)) s).2 =
        (onJar capacity ((place (s.store.get (sortedDomains (cookie :: rest))) now []
          (cookie :: rest)).bind fun _ => pure (cookie :: rest).length) s).2 :=
        (onJar_ignore _ _ _ _).symm
      rw [asked]
      rfl

theorem headerBytes_renumber (f : Nat → Nat) (cookies : List Cookie) :
    headerBytes (cookies.map (Cookie.renumber f)) = headerBytes cookies := by
  unfold headerBytes
  rw [List.map_map]
  rfl

namespace Renumbered
variable {f : Nat → Nat} {s t : JarState} {capacity : Capacity} {now : SystemTime}

theorem cookieHeader (related : Renumbered f s t) (uri : Uri) :
    (onJar capacity (CookieJar.cookieHeader uri now) t).1 =
        (onJar capacity (CookieJar.cookieHeader uri now) s).1 ∧
      Renumbered f (onJar capacity (CookieJar.cookieHeader uri now) s).2
        (onJar capacity (CookieJar.cookieHeader uri now) t).2 := by
  have keys : ∀ cookies : List Cookie, (cookies.map (Cookie.renumber f)).map CookieKey.of =
      cookies.map CookieKey.of := fun cookies => List.map_map
  rw [cookieHeader_onJar, cookieHeader_onJar, related.matching, headerBytes_renumber, keys]
  simp only [List.map_eq_nil_iff]
  split
  · exact ⟨rfl, related⟩
  · exact ⟨rfl, related.touch _⟩

/-- Whatever is done with both jars, they stay alike. -/
theorem work (related : Renumbered f s t) (jar : CookieJar) (work : JarWork) : ∃ g,
    Renumbered g (onJar capacity (work.body jar) s).2 (onJar capacity (work.body jar) t).2 := by
  cases work with
  | call asked =>
      cases asked with
      | store uri setCookie now =>
          simp only [JarWork.body, JarCall.body, CookieJar.store, onJar_ignore]
          cases jar.prepare uri setCookie now with
          | error e => exact ⟨f, related⟩
          | ok cookie =>
              simp only [onJar_ignore, ← insertAs_setCookie]
              exact related.insertAs .setCookie cookie
      | storeResponse uri headers now =>
          simp only [JarWork.body, JarCall.body, onJar_ignore, storeResponse_place]
          rw [related.get]
          exact related.place _ fun c member =>
            related.numbered.drawn c (Held.holds_of_mem_get member)
      | cookieHeader uri now =>
          simp only [JarWork.body, JarCall.body, onJar_ignore]
          exact ⟨f, (related.cookieHeader uri).2⟩
  | restore record now =>
      simp only [JarWork.body, CookieJar.restore, onJar_ignore]
      cases jar.readRecord record now with
      | error e => exact ⟨f, related⟩
      | ok kept =>
        cases kept with
        | none => exact ⟨f, related⟩
        | some cookie =>
            simp only [onJar_ignore]
            exact related.insertAs .record cookie

end Renumbered
/-- What a jar tells at a request: the cookies that match, their header, and all it holds. The
places are the jar's own. -/
def told (capacity : Capacity) (uri : Uri) (now : SystemTime) (s : JarState) :
    List Cookie × Option HeaderValue × List Cookie :=
  ((onJar capacity (matching uri now) s).1.map plain, (onJar capacity (cookieHeader uri now) s).1,
    s.store.all.map plain)

def workedOff (jar : CookieJar) (capacity : Capacity) (s : JarState) (later : List JarWork) :
    JarState :=
  later.foldl (fun s work => (onJar capacity (work.body jar) s).2) s

/-- Whatever is done later, both jars tell the same at every request. -/
def ObservablyEqual (jar : CookieJar) (capacity : Capacity) (s t : JarState) : Prop :=
  ∀ (later : List JarWork) (uri : Uri) (now : SystemTime),
    told capacity uri now (workedOff jar capacity s later) =
      told capacity uri now (workedOff jar capacity t later)

namespace Renumbered
variable {f : Nat → Nat} {s t : JarState} {capacity : Capacity}

theorem told_eq (related : Renumbered f s t) (uri : Uri) (now : SystemTime) :
    told capacity uri now s = told capacity uri now t := by
  have plains : ∀ cookies : List Cookie, (cookies.map (Cookie.renumber f)).map plain =
      cookies.map plain := fun cookies => List.map_map
  unfold told
  rw [related.matching, related.all, plains, plains, (related.cookieHeader uri).1]

theorem workedOff (related : Renumbered f s t) (jar : CookieJar) (later : List JarWork) : ∃ g,
    Renumbered g (Cookies.workedOff jar capacity s later)
      (Cookies.workedOff jar capacity t later) := by
  induction later generalizing f s t with
  | nil => exact ⟨f, related⟩
  | cons work later ih =>
      obtain ⟨g, both⟩ := related.work jar work
      exact ih both

theorem observablyEqual (related : Renumbered f s t) (jar : CookieJar) :
    ObservablyEqual jar capacity s t := by
  intro later uri now
  obtain ⟨g, both⟩ := related.workedOff jar later
  exact both.told_eq uri now

end Renumbered
end HClient.Cookies
