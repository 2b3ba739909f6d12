import HClient.Cookies.Contents
import HClient.Cookies.Pairs
import HClient.Effect.Interleave

/-!
# Places come from the counter

In every state that the work on a jar leads to, in any interleaving, each cookie is under its
own domain, no two share a key, and the counter has passed every place that was given.
-/
namespace HClient.Cookies

open Effect CookieJar

/-- The store is well formed, and the counter has passed the places of its cookies. -/
structure Numbered (s : JarState) : Prop where
  wellFormed : s.store.WellFormed
  drawn : ∀ c, s.store.Holds c → c.seq < s.nextSeq

theorem numbered_new : Numbered JarState.new :=
  ⟨Held.wellFormed_new, fun c holds => absurd holds (Held.not_holds_new c)⟩

theorem Numbered.put {s : JarState} (numbered : Numbered s) (capacity : Capacity)
    {cookie : Cookie} {now : SystemTime} {next : Nat} (le : s.nextSeq ≤ next)
    (placed : cookie.seq < next) : Numbered ⟨s.store.put capacity cookie now, next⟩ := by
  refine ⟨Held.wellFormed_put numbered.wellFormed, fun c holds => ?_⟩
  obtain rfl | held := Held.holds_put holds
  · exact placed
  · exact Nat.lt_of_lt_of_le (numbered.drawn c held) le

theorem Numbered.touch {s : JarState} (numbered : Numbered s) (keys : List CookieKey)
    (now : SystemTime) : Numbered { s with store := s.store.touch keys now } := by
  refine ⟨Held.wellFormed_touch numbered.wellFormed keys, fun c holds => ?_⟩
  obtain ⟨domain, member⟩ := holds
  rw [Held.under_touch numbered.wellFormed.domains] at member
  obtain ⟨d, there, rfl⟩ := List.mem_map.mp member
  have place : (Held.touched keys now d).seq = d.seq := by
    unfold Held.touched
    split <;> rfl
  rw [place]
  exact numbered.drawn d ⟨domain, there⟩

/-- What a jar's work calls, and is told, while the counter stands at `n`. -/
def jarGround : Ground Nat StoreCall StoreCall.Answer where
  called n op := match op with
    | .put cookie _ => cookie.seq < n
    | .remove _ | .clear => False
    | _ => True
  told n op := match op with
    | .get _ | .all => fun (r : List Cookie) => ∀ c ∈ r, c.seq < n
    | .nextSeq => fun (r : Nat) => r < n
    | _ => fun _ => True

abbrev Grounded {α : Type} (Q : Nat → α → Prop) (p : Script α) (n : Nat) : Prop :=
  p.Grounded jarGround Q n

theorem called_mono {n m : Nat} (op : StoreCall) (le : n ≤ m) (called : jarGround.called n op) :
    jarGround.called m op := by
  cases op with
  | put cookie now => exact Nat.lt_of_lt_of_le called le
  | remove key => exact called
  | clear => exact called
  | _ => trivial

theorem handle_numbered {capacity : Capacity} (op : StoreCall) (s : JarState)
    (numbered : Numbered s) (called : jarGround.called s.nextSeq op) :
    Numbered (MemoryStore.handle capacity op s).2 ∧
      s.nextSeq ≤ (MemoryStore.handle capacity op s).2.nextSeq ∧
      jarGround.told (MemoryStore.handle capacity op s).2.nextSeq op
        (MemoryStore.handle capacity op s).1 := by
  cases op with
  | get domains =>
      refine ⟨numbered, Nat.le_refl _, fun c member => ?_⟩
      exact numbered.drawn c (Held.holds_of_mem_get member)
  | all =>
      refine ⟨numbered, Nat.le_refl _, fun c member => ?_⟩
      obtain ⟨e, there, rfl⟩ := List.mem_map.mp (List.mem_mergeSort.mp member)
      obtain ⟨slot, inTable, inSlot⟩ := List.mem_flatMap.mp there
      obtain ⟨⟨c, i⟩, indexed, rfl⟩ := List.mem_map.mp inSlot
      have member : c ∈ slot.2 := (List.mem_zipIdx' indexed).2 ▸ List.getElem_mem _
      exact numbered.drawn c
        ⟨slot.1, Held.mem_under.mpr ⟨slot.2, (Table.mem_entries_iff _).mp inTable, member⟩⟩
  | put cookie now => exact ⟨numbered.put capacity (Nat.le_refl _) called, Nat.le_refl _, trivial⟩
  | remove key => exact absurd called id
  | touch keys now => exact ⟨numbered.touch keys now, Nat.le_refl _, trivial⟩
  | len => exact ⟨numbered, Nat.le_refl _, trivial⟩
  | clear => exact absurd called id
  | nextSeq =>
      refine ⟨⟨numbered.wellFormed, fun c holds => ?_⟩, Nat.le_succ _, Nat.lt_succ_self _⟩
      exact Nat.lt_succ_of_lt (numbered.drawn c holds)

theorem resolve_grounded {held : List Cookie} {n : Nat} (cookie : Cookie)
    (below : ∀ c ∈ held, c.seq < n) :
    Grounded (fun m c => c.seq < m) (resolve held cookie) n := by
  unfold resolve
  split
  next old found => exact below old (List.mem_of_find?_eq_some found)
  next => exact ⟨trivial, fun m le r told => told⟩

theorem insertAs_grounded (arrival : Arrival) (cookie : Cookie) (now : SystemTime) (n : Nat) :
    Grounded (fun _ _ => True) (insertAs arrival cookie now) n := by
  refine Program.Grounded.bind (Q := fun m (held : List Cookie) => ∀ c ∈ held, c.seq < m)
    ⟨trivial, fun m le held told => told⟩ fun m le held below => ?_
  split
  next old found => exact ⟨below old (List.mem_of_find?_eq_some found), fun _ _ _ _ => trivial⟩
  next => exact ⟨trivial, fun k le seq told => ⟨told, fun _ _ _ _ => trivial⟩⟩

theorem place_grounded {held : List Cookie} {now : SystemTime} (cookies : List Cookie)
    {placed : List Cookie} {n : Nat} (below : ∀ c ∈ placed ++ held, c.seq < n) :
    Grounded (fun _ _ => True) (place held now placed cookies) n := by
  induction cookies generalizing placed n with
  | nil => trivial
  | cons cookie rest ih =>
      refine (resolve_grounded cookie below).bind fun m le resolved drawn => ?_
      refine ⟨drawn, fun k le' _ _ => ih fun c member => ?_⟩
      rw [List.append_assoc] at member
      rcases List.mem_append.mp member with early | later
      · exact Nat.lt_of_lt_of_le (below c (List.mem_append_left _ early)) (Nat.le_trans le le')
      rcases List.mem_append.mp later with single | found
      · rw [List.mem_singleton.mp single]
        exact Nat.lt_of_lt_of_le drawn le'
      · exact Nat.lt_of_lt_of_le (below c (List.mem_append_right _ found)) (Nat.le_trans le le')

theorem matching_grounded (uri : Uri) (now : SystemTime) (n : Nat) :
    Grounded (fun _ _ => True) (matching uri now) n := by
  unfold matching
  split
  · trivial
  · exact ⟨trivial, fun _ _ _ _ => trivial⟩

theorem cookieHeader_grounded (uri : Uri) (now : SystemTime) (n : Nat) :
    Grounded (fun _ _ => True) (cookieHeader uri now) n := by
  refine (matching_grounded uri now n).bind fun m le matched _ => ?_
  split
  · trivial
  · exact ⟨trivial, fun _ _ _ _ => trivial⟩

theorem JarWork.body_grounded (jar : CookieJar) (work : JarWork) (n : Nat) :
    Grounded (fun _ _ => True) (work.body jar) n := by
  cases work with
  | call asked =>
      cases asked with
      | store uri setCookie now =>
          simp only [JarWork.body, JarCall.body, CookieJar.store]
          cases jar.prepare uri setCookie now with
          | error e => trivial
          | ok cookie =>
              have inserted := insertAs_grounded .setCookie cookie now n
              rw [insertAs_setCookie] at inserted
              exact inserted.ignore.ignore
      | storeResponse uri headers now =>
          simp only [JarWork.body, JarCall.body, CookieJar.storeResponse]
          split
          · trivial
          · refine ⟨trivial, fun m le (held : List Cookie) told => ?_⟩
            have below : ∀ c ∈ ([] : List Cookie) ++ held, c.seq < m := told
            exact (place_grounded _ below).ignore.ignore
      | cookieHeader uri now => exact (cookieHeader_grounded uri now n).ignore
  | restore record now =>
      simp only [JarWork.body, CookieJar.restore]
      cases jar.readRecord record now with
      | error e => trivial
      | ok kept =>
        cases kept with
        | none => trivial
        | some cookie => exact (insertAs_grounded _ cookie now n).ignore.ignore

/-- The work on a jar leads to numbered states only. -/
theorem numbered_run {ι : Type} [DecidableEq ι] {jar : CookieJar} {capacity : Capacity}
    {s : WorkPool ι} {ls : List (Label ι JarWork)}
    (reached : (workSystem jar capacity).run idleJar ls = some s) : Numbered s.shared := by
  refine (System.grounded_run (S := workSystem jar capacity) (G := jarGround)
    Numbered (fun op => called_mono op) (fun work n => work.body_grounded jar n) ?_
    (fun op s => handle_numbered op s) ?_ numbered_new reached).2
  · intro work s s' entered numbered
    cases entered
    exact ⟨numbered, Nat.le_refl _⟩
  · intro i task there
    cases there

end HClient.Cookies

/-!
## Renumbering

A cookie's place is drawn from a counter and only ever compared. Whatever the store does, it
does the same to cookies whose places were changed by a map that keeps their order.
-/
namespace HClient.Cookies

open Held

/-- The cookie with another place. -/
def Cookie.renumber (f : Nat → Nat) (c : Cookie) : Cookie := { c with seq := f c.seq }

namespace Cookie
variable (f : Nat → Nat) (c : Cookie)

@[simp] theorem renumber_key : CookieKey.of (c.renumber f) = CookieKey.of c := rfl
@[simp] theorem renumber_domain : (c.renumber f).domain = c.domain := rfl
@[simp] theorem renumber_creation : (c.renumber f).creation = c.creation := rfl
@[simp] theorem renumber_lastAccess : (c.renumber f).lastAccess = c.lastAccess := rfl
@[simp] theorem renumber_seq : (c.renumber f).seq = f c.seq := rfl
@[simp] theorem renumber_isExpired (now : SystemTime) :
    (c.renumber f).isExpired now = c.isExpired now := rfl

end Cookie

theorem Cookie.renumber_congr {f g : Nat → Nat} {c : Cookie} (same : f c.seq = g c.seq) :
    c.renumber f = c.renumber g := by
  simp [Cookie.renumber, same]

def Held.renumber (f : Nat → Nat) (h : Held) : Held :=
  ⟨h.byDomain.mapValues (List.map (Cookie.renumber f)), h.held⟩

namespace Held
variable {f : Nat → Nat} (h : Held)

@[simp] theorem renumber_held : (h.renumber f).held = h.held := rfl

theorem lookup_renumber (domain : Text) : (h.renumber f).byDomain.lookup domain =
    (h.byDomain.lookup domain).map (List.map (Cookie.renumber f)) :=
  Table.lookup_mapValues _ _ _

theorem under_renumber (domain : Text) :
    (h.renumber f).under domain = (h.under domain).map (Cookie.renumber f) := by
  unfold under
  rw [lookup_renumber]
  cases h.byDomain.lookup domain <;> rfl

/-- An entry with its cookie renumbered. -/
def renumberEntry (f : Nat → Nat) (e : Text × Nat × Cookie) : Text × Nat × Cookie :=
  (e.1, e.2.1, e.2.2.renumber f)

theorem entries_renumber : (h.renumber f).entries = h.entries.map (renumberEntry f) := by
  unfold entries
  change List.flatMap _ (List.map _ h.byDomain.entries) = _
  rw [List.flatMap_map, List.map_flatMap]
  refine List.flatMap_congr fun e _ => ?_
  rw [List.zipIdx_map, List.map_map, List.map_map]
  rfl

theorem get_renumber (domains : List Text) :
    (h.renumber f).get domains = (h.get domains).map (Cookie.renumber f) := by
  unfold get
  rw [List.map_flatMap]
  exact List.flatMap_congr fun domain _ => h.under_renumber domain

theorem insert_renumber (domain : Text) (cookies : List Cookie) (held : Nat) :
    (⟨(h.renumber f).byDomain.insert domain (cookies.map (Cookie.renumber f)), held⟩ : Held) =
      (⟨h.byDomain.insert domain cookies, held⟩ : Held).renumber f :=
  congrArg (fun table => Held.mk table held) (Table.mapValues_insert _ _ _ _).symm

theorem replace_renumber (domain : Text) (cookies : List Cookie) (held : Nat) :
    (h.renumber f).replace domain (cookies.map (Cookie.renumber f)) held =
      (h.replace domain cookies held).renumber f := by
  cases cookies with
  | nil => exact congrArg (fun table => Held.mk table held) (Table.mapValues_erase _ _ _).symm
  | cons c cookies => exact h.insert_renumber domain (c :: cookies) held

theorem keepUnexpired_renumber (now : SystemTime) (cookies : List Cookie) :
    keepUnexpired now (cookies.map (Cookie.renumber f)) =
      (keepUnexpired now cookies).map (List.map (Cookie.renumber f)) := by
  unfold keepUnexpired
  simp only [List.filter_map, List.map_eq_nil_iff]
  change (if cookies.filter (fun c => ¬ c.isExpired now) = [] then none else
    some ((cookies.filter fun c => ¬ c.isExpired now).map (Cookie.renumber f))) = _
  split <;> rfl

theorem purgeExpired_renumber (now : SystemTime) :
    (h.renumber f).purgeExpired now = (h.purgeExpired now).renumber f := by
  unfold purgeExpired
  have kept : (h.renumber f).byDomain.retain (keepUnexpired now) =
      (h.byDomain.retain (keepUnexpired now)).mapValues (List.map (Cookie.renumber f)) :=
    (Table.mapValues_retain _ (keepUnexpired_renumber now)).symm
  have dropped : ((h.renumber f).entries.filter fun e => e.2.2.isExpired now).length =
      (h.entries.filter fun e => e.2.2.isExpired now).length := by
    rw [entries_renumber, List.filter_map, List.length_map]
    rfl
  rw [kept, dropped]
  rfl

theorem remove_renumber (key : CookieKey) :
    (h.renumber f).remove key = (h.remove key).renumber f := by
  unfold remove
  rw [lookup_renumber]
  cases h.byDomain.lookup key.domain with
  | none => rfl
  | some cookies =>
      have kept : (cookies.map (Cookie.renumber f)).filter (fun c => CookieKey.of c ≠ key) =
          (cookies.filter fun c => CookieKey.of c ≠ key).map (Cookie.renumber f) :=
        List.filter_map
      simp only [Option.map_some, kept, List.length_map, renumber_held]
      exact h.replace_renumber _ _ _

theorem push_renumber (cookie : Cookie) :
    (h.renumber f).push (cookie.renumber f) = (h.push cookie).renumber f := by
  have slot : (h.renumber f).under cookie.domain ++ [cookie.renumber f] =
      (h.under cookie.domain ++ [cookie]).map (Cookie.renumber f) := by
    rw [under_renumber, List.map_append, List.map_singleton]
  unfold push
  rw [Cookie.renumber_domain, slot]
  exact h.insert_renumber _ _ _

theorem touchOne_renumber (now : SystemTime) (key : CookieKey) :
    (h.renumber f).touchOne now key = (h.touchOne now key).renumber f := by
  unfold touchOne
  rw [lookup_renumber]
  cases h.byDomain.lookup key.domain with
  | none => rfl
  | some cookies =>
      let touched := fun c : Cookie =>
        if CookieKey.of c = key then { c with lastAccess := now } else c
      have commutes : (cookies.map (Cookie.renumber f)).map touched =
          (cookies.map touched).map (Cookie.renumber f) := by
        rw [List.map_map, List.map_map]
        refine List.map_congr_left fun c _ => ?_
        simp only [touched, Function.comp_apply, Cookie.renumber_key]
        rw [apply_ite (Cookie.renumber f)]
        rfl
      simp only [Option.map_some]
      rw [renumber_held, commutes]
      exact h.insert_renumber _ _ _

theorem touch_renumber (keys : List CookieKey) (now : SystemTime) :
    (h.renumber f).touch keys now = (h.touch keys now).renumber f := by
  unfold touch
  induction keys generalizing h with
  | nil => rfl
  | cons key keys ih =>
      rw [List.foldl_cons, List.foldl_cons, touchOne_renumber]
      exact ih _

/-! Eviction compares places, so the map has to keep their order. -/

theorem evictsBefore_renumber (mono : StrictMono f) (a b : Cookie) :
    evictsBefore (a.renumber f) (b.renumber f) = evictsBefore a b := by
  simp [evictsBefore, mono.lt_iff_lt]

theorem leastRecentlyUsed_renumber (mono : StrictMono f) (l : List (Text × Nat × Cookie)) :
    leastRecentlyUsed (l.map (renumberEntry f)) =
      (leastRecentlyUsed l).map (renumberEntry f) := by
  have fold : ∀ (l : List (Text × Nat × Cookie)) (best : Text × Nat × Cookie),
      (l.map (renumberEntry f)).foldl
          (fun best e => if evictsBefore e.2.2 best.2.2 then e else best) (renumberEntry f best) =
        renumberEntry f
          (l.foldl (fun best e => if evictsBefore e.2.2 best.2.2 then e else best) best) := by
    intro l
    induction l with
    | nil => exact fun _ => rfl
    | cons e l ih =>
        intro best
        rw [List.map_cons, List.foldl_cons, List.foldl_cons, ← ih]
        congr 1
        have compared : evictsBefore (renumberEntry f e).2.2 (renumberEntry f best).2.2 =
            evictsBefore e.2.2 best.2.2 := evictsBefore_renumber mono _ _
        rw [compared]
        split <;> rfl
  cases l with
  | nil => rfl
  | cons e l => exact congrArg some (fold l e)

theorem evictLru_renumber (mono : StrictMono f) (domain : Option Text) :
    (h.renumber f).evictLru domain = (h.evictLru domain).map (Held.renumber f) := by
  unfold evictLru
  have candidates : (h.renumber f).entries.filter (fun e => domain.all fun want => e.1 = want) =
      (h.entries.filter fun e => domain.all fun want => e.1 = want).map (renumberEntry f) := by
    rw [entries_renumber, List.filter_map]
    rfl
  simp only [candidates, leastRecentlyUsed_renumber mono, Option.map_map]
  congr 1
  funext e
  change (h.renumber f).replace e.1 (((h.renumber f).under e.1).eraseIdx e.2.1) (h.held - 1) = _
  rw [under_renumber, List.eraseIdx_map]
  exact h.replace_renumber _ _ _

theorem evictWhile_renumber (mono : StrictMono f) {full : Held → Bool}
    (same : ∀ h, full (h.renumber f) = full h) (domain : Option Text) (fuel : Nat) :
    evictWhile full domain fuel (h.renumber f) = (evictWhile full domain fuel h).renumber f := by
  induction fuel generalizing h with
  | zero => rfl
  | succ fuel ih =>
      unfold evictWhile
      rw [same, evictLru_renumber h mono]
      cases h.evictLru domain with
      | none => split <;> rfl
      | some h' =>
          simp only [Option.map_some, ih]
          split <;> rfl

theorem isDomainFull_renumber (capacity : Capacity) (domain : Text) :
    isDomainFull capacity domain (h.renumber f) = isDomainFull capacity domain h := by
  unfold isDomainFull
  rw [lookup_renumber]
  cases h.byDomain.lookup domain <;> simp

theorem makeRoom_renumber (mono : StrictMono f) (capacity : Capacity) (domain : Text) :
    (h.renumber f).makeRoom capacity domain = (h.makeRoom capacity domain).renumber f := by
  have count : ∀ h : Held, (h.renumber f).entries.length = h.entries.length := fun h => by
    rw [entries_renumber, List.length_map]
  unfold makeRoom
  simp only [count]
  rw [evictWhile_renumber h mono fun h => h.isDomainFull_renumber capacity domain, count]
  exact evictWhile_renumber _ mono (fun _ => rfl) _ _

theorem put_renumber (mono : StrictMono f) (capacity : Capacity) (cookie : Cookie)
    (now : SystemTime) : (h.renumber f).put capacity (cookie.renumber f) now =
      (h.put capacity cookie now).renumber f := by
  have key : CookieKey.of (cookie.renumber f) = CookieKey.of cookie := rfl
  have place : ((h.purgeExpired now).renumber f).under (CookieKey.of cookie).domain =
      ((h.purgeExpired now).under (CookieKey.of cookie).domain).map (Cookie.renumber f) :=
    under_renumber _ _
  have same : (fun c => decide (CookieKey.of c = CookieKey.of (cookie.renumber f))) ∘
      Cookie.renumber f = fun c => decide (CookieKey.of c = CookieKey.of cookie) := rfl
  unfold put
  simp only [purgeExpired_renumber, Cookie.renumber_isExpired]
  split
  · exact remove_renumber _ _
  rw [key, place, List.findIdx?_map, ← key, same, key]
  cases ((h.purgeExpired now).under (CookieKey.of cookie).domain).findIdx?
      fun c => CookieKey.of c = CookieKey.of cookie with
  | none =>
      simp only [makeRoom_renumber _ mono]
      exact push_renumber _ _
  | some i =>
      simp only [← List.map_set]
      exact insert_renumber _ _ _ _

end Held
end HClient.Cookies
