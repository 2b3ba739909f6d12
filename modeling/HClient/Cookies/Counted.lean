import HClient.Cookies.Contents

/-!
# The counter beside the map

`held` is kept next to the table of cookies and moved by hand on every branch. In every state
of the store that its operations lead to it counts what the table holds, the two bounds are
kept, and nothing is ever taken away that is not there.
-/
namespace HClient.Cookies

namespace Held
variable {h : Held} {domain : Text} {now : SystemTime}

/-- How many cookies the table holds. -/
def count (h : Held) : Nat := Table.weight List.length h.byDomain

/-- The counter counts the table, and no domain is kept without a cookie. -/
structure Counted (h : Held) : Prop where
  held : h.held = h.count
  nonempty : ∀ domain, h.byDomain.lookup domain ≠ some []

theorem counted_new : new.Counted := ⟨rfl, fun _ => nofun⟩

theorem entries_length (h : Held) : h.entries.length = h.count := by
  unfold entries count Table.weight
  rw [List.length_flatMap]
  simp

/-- The lists of a table without its expired cookies, and those, are what it was. -/
theorem count_purgeExpired (h : Held) (now : SystemTime) :
    h.count = (h.purgeExpired now).count +
      (h.entries.filter fun e => e.2.2.isExpired now).length := by
  have expired : ∀ e : Sigma fun _ : Text => List Cookie,
      ((e.2.zipIdx.map fun p => (e.1, p.2, p.1)).filter fun e => e.2.2.isExpired now).length =
        (e.2.filter fun c => c.isExpired now).length := by
    intro e
    rw [← List.countP_eq_length_filter, ← List.countP_eq_length_filter, List.countP_map]
    have firsts : e.2.countP (fun c => c.isExpired now) =
        (e.2.zipIdx.map Prod.fst).countP fun c => c.isExpired now := by
      rw [List.zipIdx_map_fst]
    rw [firsts, List.countP_map]
    rfl
  unfold count purgeExpired entries Table.weight Table.retain
  simp only
  induction h.byDomain.entries with
  | nil => rfl
  | cons e rest ih =>
      have split : e.2.length = (e.2.filter fun c => ¬ c.isExpired now).length +
          (e.2.filter fun c => c.isExpired now).length := by
        have both := List.length_eq_length_filter_add (l := e.2) fun c => c.isExpired now
        simp only [decide_not, Bool.decide_eq_true]
        omega
      rw [List.map_cons, List.sum_cons, List.flatMap_cons, List.filter_append,
        List.length_append, expired, ih, split]
      have entry : Table.retainEntry (keepUnexpired now) e =
          if (e.2.filter fun c => ¬ c.isExpired now) = [] then none
          else some ⟨e.1, e.2.filter fun c => ¬ c.isExpired now⟩ := by
        unfold Table.retainEntry keepUnexpired
        simp only
        split <;> rfl
      by_cases gone : (e.2.filter fun c => ¬ c.isExpired now) = []
      · rw [List.filterMap_cons_none (entry.trans (if_pos gone)), gone]
        simp only [List.length_nil]
        omega
      · rw [List.filterMap_cons_some (entry.trans (if_neg gone)), List.map_cons, List.sum_cons]
        simp only
        omega

theorem Counted.purgeExpired (counted : h.Counted) (now : SystemTime) :
    (h.purgeExpired now).Counted := by
  constructor
  · have whole := count_purgeExpired h now
    change h.held - _ = _
    rw [counted.held]
    omega
  · intro domain found
    have found : (Table.retain (keepUnexpired now) h.byDomain).lookup domain = some [] := found
    rw [Table.lookup_retain, Option.bind_eq_some_iff] at found
    obtain ⟨cookies, -, kept⟩ := found
    simp only [keepUnexpired, Option.ite_none_left_eq_some, Option.some.injEq] at kept
    exact kept.1 kept.2

theorem byDomain_replace (h : Held) (domain : Text) (cookies : List Cookie) (held : Nat) :
    (h.replace domain cookies held).byDomain =
      if cookies = [] then h.byDomain.erase domain else h.byDomain.insert domain cookies := by
  unfold replace
  split <;> rfl

theorem count_replace (h : Held) (domain : Text) (cookies : List Cookie) (held : Nat) :
    (h.replace domain cookies held).count =
      cookies.length + Table.weight List.length (h.byDomain.erase domain) := by
  rw [count, byDomain_replace]
  exact Table.weight_keepNonempty _ _ _

theorem count_of_found {cookies : List Cookie} (found : h.byDomain.lookup domain = some cookies) :
    h.count = cookies.length + Table.weight List.length (h.byDomain.erase domain) :=
  Table.weight_erase found

theorem nonempty_replace (nonempty : ∀ domain, h.byDomain.lookup domain ≠ some [])
    (cookies : List Cookie) (held : Nat) (domain' : Text) :
    (h.replace domain cookies held).byDomain.lookup domain' ≠ some [] := by
  rw [byDomain_replace]
  exact Table.lookup_keepNonempty nonempty domain cookies domain'

/-- A list that is part of the one it replaces, with the difference taken off the counter. -/
theorem Counted.replace (counted : h.Counted) {cookies kept : List Cookie}
    (found : h.byDomain.lookup domain = some cookies) (fewer : kept.length ≤ cookies.length) :
    (h.replace domain kept (h.held - (cookies.length - kept.length))).Counted := by
  refine ⟨?_, nonempty_replace counted.nonempty kept _⟩
  have before := count_of_found found
  have after := count_replace h domain kept (h.held - (cookies.length - kept.length))
  have same : (h.replace domain kept (h.held - (cookies.length - kept.length))).held =
      h.held - (cookies.length - kept.length) := by
    unfold Held.replace
    split <;> rfl
  rw [same, after, counted.held]
  omega

/-! What each decrement takes off is there. -/

theorem Counted.expired_le (counted : h.Counted) (now : SystemTime) :
    (h.entries.filter fun e => e.2.2.isExpired now).length ≤ h.held := by
  rw [counted.held, count_purgeExpired h now]
  exact Nat.le_add_left _ _

theorem Counted.found_le (counted : h.Counted) {cookies : List Cookie}
    (found : h.byDomain.lookup domain = some cookies) : cookies.length ≤ h.held := by
  rw [counted.held]
  exact Table.le_weight List.length found

theorem mem_leastRecentlyUsed {l : List (Text × Nat × Cookie)} {e : Text × Nat × Cookie}
    (least : leastRecentlyUsed l = some e) : e ∈ l := by
  cases l with
  | nil => cases least
  | cons first rest =>
      have among : ∀ (rest : List (Text × Nat × Cookie)) (best : Text × Nat × Cookie),
          rest.foldl (fun best e => if evictsBefore e.2.2 best.2.2 then e else best) best ∈
            best :: rest := by
        intro rest
        induction rest with
        | nil => exact fun best => List.mem_singleton_self best
        | cons e rest ih =>
            intro best
            rw [List.foldl_cons]
            rcases List.mem_cons.mp (ih (if evictsBefore e.2.2 best.2.2 then e else best)) with
              chosen | later
            · rw [chosen]
              split <;> simp
            · simp [later]
      rw [← Option.some.inj least]
      exact among rest first

/-- The victim of an eviction, and where it stands. -/
theorem evictLru_some {h' : Held} {only : Option Text} (evicted : h.evictLru only = some h') :
    ∃ d i c cookies, h.byDomain.lookup d = some cookies ∧ cookies[i]? = some c ∧
      (only.all fun want => d = want) = true ∧
      h' = h.replace d (cookies.eraseIdx i) (h.held - 1) := by
  obtain ⟨⟨d, i, c⟩, least, rfl⟩ := Option.map_eq_some_iff.mp evicted
  obtain ⟨there, wanted⟩ := List.mem_filter.mp (mem_leastRecentlyUsed least)
  obtain ⟨e, inTable, inList⟩ := List.mem_flatMap.mp there
  obtain ⟨⟨c', i'⟩, indexed, same⟩ := List.mem_map.mp inList
  cases same
  have found := (Table.mem_entries_iff h.byDomain).mp inTable
  refine ⟨e.1, i, c, e.2, found, ?_, wanted, ?_⟩
  · have place := List.mem_zipIdx' indexed
    rw [place.2]
    exact List.getElem?_eq_getElem place.1
  · simp [under, found]

theorem Counted.evictLru (counted : h.Counted) {h' : Held} {only : Option Text}
    (evicted : h.evictLru only = some h') : h'.Counted ∧ h'.held + 1 = h.held := by
  obtain ⟨d, i, c, cookies, found, there, -, rfl⟩ := evictLru_some evicted
  obtain ⟨inside, -⟩ := List.getElem?_eq_some_iff.mp there
  have shorter := List.length_eraseIdx_of_lt inside
  have enough := counted.found_le found
  have one : h.held - 1 = h.held - (cookies.length - (cookies.eraseIdx i).length) := by omega
  refine ⟨?_, ?_⟩
  · rw [one]
    exact counted.replace found (by omega)
  · have same : (h.replace d (cookies.eraseIdx i) (h.held - 1)).held = h.held - 1 := by
      unfold Held.replace
      split <;> rfl
    rw [same]
    omega

theorem Counted.evictWhile (counted : h.Counted) (full : Held → Bool) (only : Option Text)
    (fuel : Nat) : (evictWhile full only fuel h).Counted := by
  induction fuel generalizing h with
  | zero => exact counted
  | succ fuel ih =>
      unfold Held.evictWhile
      split
      · cases evicted : h.evictLru only with
        | none => exact counted
        | some h' => exact ih (counted.evictLru evicted).1
      · exact counted

theorem Counted.makeRoom (counted : h.Counted) (capacity : Capacity) (arriving : Text) :
    (h.makeRoom capacity arriving).Counted :=
  (counted.evictWhile _ _ _).evictWhile _ _ _

/-- The loop ends because its condition fails, wherever an empty-handed eviction means that it
does. -/
theorem evictWhile_makes (full : Held → Bool) (only : Option Text)
    (empty : ∀ h : Held, h.Counted → h.evictLru only = none → full h = false) (fuel : Nat)
    {h : Held} (counted : h.Counted) (enough : h.held ≤ fuel) :
    full (evictWhile full only fuel h) = false := by
  induction fuel generalizing h with
  | zero =>
      cases evicted : h.evictLru only with
      | none => exact empty h counted evicted
      | some h' =>
          have taken := (counted.evictLru evicted).2
          omega
  | succ fuel ih =>
      unfold evictWhile
      split
      · cases evicted : h.evictLru only with
        | none => exact empty h counted evicted
        | some h' =>
            have taken := (counted.evictLru evicted).2
            exact ih (counted.evictLru evicted).1 (by omega)
      next room => exact eq_false_of_ne_true room

theorem leastRecentlyUsed_eq_none {l : List (Text × Nat × Cookie)} :
    leastRecentlyUsed l = none ↔ l = [] := by
  cases l <;> simp [leastRecentlyUsed]

/-- Nothing can be evicted of a domain only where nothing is under it. -/
theorem under_of_evictLru_none (evicted : h.evictLru (some domain) = none) :
    h.under domain = [] := by
  have none_there := leastRecentlyUsed_eq_none.mp (Option.map_eq_none_iff.mp evicted)
  by_contra some_there
  obtain ⟨c, member⟩ := List.exists_mem_of_ne_nil _ some_there
  obtain ⟨cookies, found, member⟩ := mem_under.mp member
  obtain ⟨i, inside, rfl⟩ := List.getElem_of_mem member
  refine List.filter_eq_nil_iff.mp none_there (domain, i, cookies[i]) ?_ (by simp)
  refine List.mem_flatMap.mpr ⟨⟨domain, cookies⟩, (Table.mem_entries_iff _).mpr found, ?_⟩
  exact List.mem_map.mpr ⟨(cookies[i], i), List.mk_mem_zipIdx_iff_getElem?.mpr (by simp), rfl⟩

theorem held_of_evictLru_none (counted : h.Counted) (evicted : h.evictLru none = none) :
    h.held = 0 := by
  have none_there := leastRecentlyUsed_eq_none.mp (Option.map_eq_none_iff.mp evicted)
  simp only [Option.all_none, List.filter_true] at none_there
  rw [counted.held, ← entries_length, none_there]
  rfl

/-! ## The operations -/

theorem Counted.remove (counted : h.Counted) (key : CookieKey) : (h.remove key).Counted := by
  unfold Held.remove
  split
  · exact counted
  next cookies found => exact counted.replace found (List.length_filter_le _ _)

/-- A list stored in the place of one as long. -/
theorem Counted.insert (counted : h.Counted) {cookies cookies' : List Cookie}
    (found : h.byDomain.lookup domain = some cookies) (same : cookies'.length = cookies.length) :
    (⟨h.byDomain.insert domain cookies', h.held⟩ : Held).Counted := by
  have some_there : cookies ≠ [] := fun gone => counted.nonempty domain (gone ▸ found)
  refine ⟨?_, fun domain' missing => ?_⟩
  · have before := count_of_found found
    have after := Table.weight_insert List.length h.byDomain domain cookies'
    change h.held = Table.weight List.length (h.byDomain.insert domain cookies')
    rw [counted.held, before, after, same]
  · by_cases here : domain' = domain
    · subst here
      simp only [AList.lookup_insert, Option.some.injEq] at missing
      exact some_there (List.length_eq_zero_iff.mp (by rw [← same, missing]; rfl))
    · rw [AList.lookup_insert_ne here] at missing
      exact counted.nonempty domain' missing

theorem Counted.touchOne (counted : h.Counted) (key : CookieKey) (now : SystemTime) :
    (h.touchOne now key).Counted := by
  unfold Held.touchOne
  split
  · exact counted
  next cookies found => exact counted.insert found (List.length_map _)

theorem Counted.touch (counted : h.Counted) (keys : List CookieKey) (now : SystemTime) :
    (h.touch keys now).Counted := by
  induction keys generalizing h with
  | nil => exact counted
  | cons key keys ih => exact ih (counted.touchOne key now)

theorem Counted.push (counted : h.Counted) (cookie : Cookie) : (h.push cookie).Counted := by
  refine ⟨?_, fun domain' missing => ?_⟩
  · have after := Table.weight_insert List.length h.byDomain cookie.domain
      (h.under cookie.domain ++ [cookie])
    change h.held + 1 = Table.weight List.length (h.byDomain.insert cookie.domain _)
    rw [after, counted.held, List.length_append, List.length_singleton]
    cases found : h.byDomain.lookup cookie.domain with
    | none => simp [count, under, found, Table.erase_of_lookup_none found, Nat.add_comm]
    | some cookies =>
        rw [count_of_found found]
        simp only [under, found, Option.getD_some]
        omega
  · by_cases here : domain' = cookie.domain
    · subst here
      simp [Held.push] at missing
    · rw [Held.push, AList.lookup_insert_ne here] at missing
      exact counted.nonempty domain' missing

/-- The list a domain's place was found in. -/
theorem lookup_of_findIdx? {p : Cookie → Bool} {i : Nat}
    (found : (h.under domain).findIdx? p = some i) :
    h.byDomain.lookup domain = some (h.under domain) := by
  unfold under at found ⊢
  cases there : h.byDomain.lookup domain with
  | none => simp [there] at found
  | some cookies => rfl

theorem Counted.put (counted : h.Counted) (capacity : Capacity) (cookie : Cookie)
    (now : SystemTime) : (h.put capacity cookie now).Counted := by
  have purged := counted.purgeExpired now
  unfold Held.put
  simp only
  split
  · exact purged.remove _
  split
  next i found => exact purged.insert (lookup_of_findIdx? found) (List.length_set)
  · exact (purged.makeRoom capacity _).push cookie

/-! ## The bounds -/

/-- No domain holds more than its share, nor the store more than there is room for. -/
structure Bounded (capacity : Capacity) (h : Held) : Prop where
  perDomain : ∀ domain, (h.under domain).length ≤ capacity.maxPerDomain
  total : h.held ≤ capacity.maxCookies

section Bounds
variable {capacity : Capacity}

theorem held_replace (h : Held) (domain : Text) (cookies : List Cookie) (held : Nat) :
    (h.replace domain cookies held).held = held := by
  unfold replace
  split <;> rfl

/-- Each list is part of what it was, and the counter did not grow. -/
theorem Bounded.shrink {h' : Held} (bounded : h.Bounded capacity)
    (shorter : ∀ domain, (h'.under domain).length ≤ (h.under domain).length)
    (fewer : h'.held ≤ h.held) : h'.Bounded capacity :=
  ⟨fun domain => (shorter domain).trans (bounded.perDomain domain), fewer.trans bounded.total⟩

theorem Bounded.purgeExpired (bounded : h.Bounded capacity) (now : SystemTime) :
    (h.purgeExpired now).Bounded capacity := by
  refine bounded.shrink (fun domain => ?_) (Nat.sub_le _ _)
  rw [under_purgeExpired]
  exact List.length_filter_le _ _

theorem held_remove_le (h : Held) (key : CookieKey) : (h.remove key).held ≤ h.held := by
  unfold remove
  split
  · exact Nat.le_refl _
  · rw [held_replace]
    exact Nat.sub_le _ _

theorem Bounded.remove (bounded : h.Bounded capacity) (key : CookieKey) :
    (h.remove key).Bounded capacity := by
  refine bounded.shrink (fun domain => ?_) (held_remove_le h key)
  rw [under_remove]
  split
  · exact List.length_filter_le _ _
  · exact Nat.le_refl _

theorem held_touch (h : Held) (keys : List CookieKey) (now : SystemTime) :
    (h.touch keys now).held = h.held := by
  induction keys generalizing h with
  | nil => rfl
  | cons key keys ih =>
      rw [touch, List.foldl_cons, ← touch, ih]
      unfold touchOne
      split <;> rfl

theorem Bounded.touch (bounded : h.Bounded capacity) (wf : h.WellFormed) (keys : List CookieKey)
    (now : SystemTime) : (h.touch keys now).Bounded capacity := by
  refine bounded.shrink (fun domain => ?_) (Nat.le_of_eq (held_touch h keys now))
  rw [under_touch wf.domains, List.length_map]

theorem under_length_of_room (atLeastOne : 1 ≤ capacity.maxPerDomain)
    (room : isDomainFull capacity domain h = false) :
    (h.under domain).length < capacity.maxPerDomain := by
  unfold isDomainFull at room
  unfold under
  cases there : h.byDomain.lookup domain with
  | none => exact atLeastOne
  | some cookies =>
      rw [there] at room
      exact Nat.lt_of_not_le (of_decide_eq_false room)

/-- Once room was made there is some: under the domain, and in the store. -/
theorem room_after_makeRoom (counted : h.Counted) (oneCookie : 1 ≤ capacity.maxCookies)
    (onePerDomain : 1 ≤ capacity.maxPerDomain) (arriving : Text) :
    ((h.makeRoom capacity arriving).under arriving).length < capacity.maxPerDomain ∧
      (h.makeRoom capacity arriving).held < capacity.maxCookies := by
  have counts : ∀ {h : Held}, h.Counted → h.held ≤ h.entries.length := by
    intro h counted
    rw [entries_length, ← counted.held]
  have first := counted.evictWhile (isDomainFull capacity arriving) (some arriving)
    h.entries.length
  have domainRoom := evictWhile_makes (isDomainFull capacity arriving) (some arriving)
    (fun h counted evicted => by
      have gone := under_of_evictLru_none evicted
      unfold isDomainFull
      cases there : h.byDomain.lookup arriving with
      | none => rfl
      | some cookies =>
          rw [under, there] at gone
          exact absurd (there.trans (congrArg some gone)) (counted.nonempty arriving))
    h.entries.length counted (counts counted)
  have storeRoom := evictWhile_makes (isFull capacity) none
    (fun h counted evicted => by
      rw [isFull, held_of_evictLru_none counted evicted]
      exact decide_eq_false (Nat.not_le.mpr oneCookie))
    _ first (counts first)
  refine ⟨?_, Nat.lt_of_not_le (of_decide_eq_false storeRoom)⟩
  exact Nat.lt_of_le_of_lt (under_evictWhile_sublist _ _ _ _ arriving).length_le
    (under_length_of_room onePerDomain domainRoom)

theorem Bounded.put (bounded : h.Bounded capacity) (counted : h.Counted)
    (oneCookie : 1 ≤ capacity.maxCookies) (onePerDomain : 1 ≤ capacity.maxPerDomain)
    (cookie : Cookie) (now : SystemTime) : (h.put capacity cookie now).Bounded capacity := by
  have purged := bounded.purgeExpired now
  have countedPurged := counted.purgeExpired now
  unfold Held.put
  simp only
  split
  · exact purged.remove _
  split
  next i found =>
    refine purged.shrink (fun domain => ?_) (Nat.le_refl _)
    rw [under_insert]
    split
    next same => rw [List.length_set, same]
    · exact Nat.le_refl _
  · obtain ⟨domainRoom, storeRoom⟩ :=
      room_after_makeRoom countedPurged oneCookie onePerDomain cookie.domain
    refine ⟨fun domain => ?_, storeRoom⟩
    rw [under_push]
    split
    next same =>
      rw [List.length_append, List.length_singleton, same]
      exact domainRoom
    · exact (under_makeRoom_sublist capacity cookie.domain _ domain).length_le.trans
        (purged.perDomain domain)

end Bounds

theorem wellFormed_remove (wf : h.WellFormed) (key : CookieKey) : (h.remove key).WellFormed := by
  constructor
  · intro domain c member
    rw [under_remove] at member
    split at member
    · exact wf.domains domain c (List.mem_of_mem_filter member)
    · exact wf.domains domain c member
  · intro domain
    rw [under_remove]
    split
    · exact (wf.keys domain).sublist (List.filter_sublist.map _)
    · exact wf.keys domain

/-- Over all domains, no two of the cookies held share a key. -/
theorem WellFormed.nodup_entries (wf : h.WellFormed) :
    (h.entries.map fun e => CookieKey.of e.2.2).Nodup := by
  have listed : h.entries.map (fun e => CookieKey.of e.2.2) =
      h.byDomain.entries.flatMap fun e => e.2.map CookieKey.of := by
    unfold entries
    rw [List.map_flatMap]
    refine List.flatMap_congr fun e _ => ?_
    rw [List.map_map]
    have firsts : e.2.zipIdx.map Prod.fst = e.2 := List.zipIdx_map_fst _ _
    conv_rhs => rw [← firsts, List.map_map]
    rfl
  have there : ∀ e ∈ h.byDomain.entries, e.2 = h.under e.1 := by
    intro e member
    simp [under, (Table.mem_entries_iff h.byDomain).mp member]
  rw [listed, List.nodup_flatMap]
  refine ⟨fun e member => there e member ▸ wf.keys e.1, ?_⟩
  have keys : h.byDomain.entries.Pairwise fun e e' => e.1 ≠ e'.1 :=
    List.pairwise_map.mp h.byDomain.nodupKeys
  refine keys.imp_of_mem fun mem mem' differ key here other => ?_
  obtain ⟨c, inC, rfl⟩ := List.mem_map.mp here
  obtain ⟨d, inD, same⟩ := List.mem_map.mp other
  rw [there _ mem] at inC
  rw [there _ mem'] at inD
  refine differ ?_
  rw [← wf.domains _ c inC, ← wf.domains _ d inD]
  exact (congrArg CookieKey.domain same).symm

end Held
end HClient.Cookies
