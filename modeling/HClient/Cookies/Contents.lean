import HClient.Cookies.Persist

/-!
# What the store holds

Which cookies are under a domain after each operation, where no bound is reached, and which
domains the candidates of a host are.
-/
namespace HClient.Cookies

/-- The candidates are what the suffix rule accepts. -/
theorem mem_tailDomains {domain rest : Text} :
    domain ∈ tailDomains rest ↔ ∃ labels, rest = labels ++ '.' :: domain := by
  induction rest with
  | nil => simp [tailDomains]
  | cons c rest ih =>
      have split : (∃ labels, c :: rest = labels ++ '.' :: domain) ↔
          (c = '.' ∧ rest = domain) ∨ ∃ labels, rest = labels ++ '.' :: domain := by
        constructor
        · intro h
          obtain ⟨labels, same⟩ := h
          cases labels with
          | nil =>
              cases same
              exact .inl ⟨rfl, rfl⟩
          | cons label labels =>
              cases same
              exact .inr ⟨labels, rfl⟩
        · intro h
          obtain ⟨rfl, rfl⟩ | ⟨labels, rfl⟩ := h
          · exact ⟨[], rfl⟩
          · exact ⟨c :: labels, rfl⟩
      rw [split, ← ih, tailDomains]
      by_cases dot : c = '.' <;> simp [dot, eq_comm]

theorem mem_candidateDomains {domain host : Text} :
    domain ∈ candidateDomains host ↔ Covers domain host := by
  unfold candidateDomains Covers
  cases isIpLiteral host with
  | true => simp [eq_comm]
  | false => simp [mem_tailDomains, eq_comm]

theorem tailDomains_length {rest domain : Text} (member : domain ∈ tailDomains rest) :
    domain.length < rest.length := by
  obtain ⟨labels, rfl⟩ := mem_tailDomains.mp member
  rw [List.length_append, List.length_cons]
  omega

/-- Each candidate is there once. -/
theorem nodup_candidateDomains (host : Text) : (candidateDomains host).Nodup := by
  have tails : ∀ rest : Text, (tailDomains rest).Nodup := by
    intro rest
    induction rest with
    | nil => exact .nil
    | cons c rest ih =>
        unfold tailDomains
        split
        · exact List.nodup_cons.mpr
            ⟨fun member => Nat.lt_irrefl _ (tailDomains_length member), ih⟩
        · exact ih
  unfold candidateDomains
  split
  · exact List.nodup_singleton _
  · exact List.nodup_cons.mpr
      ⟨fun member => Nat.lt_irrefl _ (tailDomains_length member), tails host⟩

namespace Held
variable {h : Held} {domain domain' : Text} {now : SystemTime}

theorem under_insert (cookies : List Cookie) (held : Nat) :
    (⟨h.byDomain.insert domain cookies, held⟩ : Held).under domain' =
      if domain' = domain then cookies else h.under domain' := by
  by_cases same : domain' = domain
  · subst same
    simp [under]
  · simp [under, same, AList.lookup_insert_ne same]

theorem under_replace (cookies : List Cookie) (held : Nat) :
    (h.replace domain cookies held).under domain' =
      if domain' = domain then cookies else h.under domain' := by
  unfold replace
  split
  next none_left =>
    by_cases same : domain' = domain
    · subst same
      simp [under, none_left]
    · simp [under, same, AList.lookup_erase_ne same]
  next => exact under_insert cookies held

theorem under_purgeExpired :
    (h.purgeExpired now).under domain = (h.under domain).filter fun c => !c.isExpired now := by
  unfold under purgeExpired
  rw [Table.lookup_retain]
  cases h.byDomain.lookup domain with
  | none => rfl
  | some cookies =>
      simp only [Option.bind_some, keepUnexpired, Option.getD_some]
      split
      next none_left => simpa using none_left.symm
      next => simp

theorem under_remove (key : CookieKey) : (h.remove key).under domain =
    if domain = key.domain then (h.under domain).filter fun c => CookieKey.of c ≠ key
    else h.under domain := by
  unfold remove
  split
  next missing =>
    split
    next same =>
      subst same
      simp [under, missing]
    next => rfl
  next cookies found =>
    simp only [under_replace]
    split
    next same =>
      subst same
      simp [under, found]
    next => rfl

theorem under_push (cookie : Cookie) : (h.push cookie).under domain =
    if domain = cookie.domain then h.under domain ++ [cookie] else h.under domain := by
  unfold push
  rw [under_insert]
  by_cases same : domain = cookie.domain
  · simp [same]
  · simp [same]

/-- The store is below both of its bounds. -/
def Roomy (capacity : Capacity) (h : Held) : Prop :=
  h.held < capacity.maxCookies ∧
    ∀ e ∈ h.byDomain.entries, e.2.length < capacity.maxPerDomain

instance (capacity : Capacity) (h : Held) : Decidable (Roomy capacity h) :=
  inferInstanceAs (Decidable (_ ∧ _))

theorem evictWhile_not_full {full : Held → Bool} (room : full h = false) (domain : Option Text)
    (fuel : Nat) : evictWhile full domain fuel h = h := by
  cases fuel with
  | zero => rfl
  | succ fuel => simp [evictWhile, room]

theorem makeRoom_roomy {capacity : Capacity} (roomy : h.Roomy capacity) :
    h.makeRoom capacity domain = h := by
  have domainRoom : isDomainFull capacity domain h = false := by
    unfold isDomainFull
    split
    next cookies found =>
      have short := roomy.2 _ ((Table.mem_entries_iff h.byDomain).mpr found)
      exact decide_eq_false (Nat.not_le.mpr short)
    next => rfl
  have room : isFull capacity h = false := decide_eq_false (Nat.not_le.mpr roomy.1)
  unfold makeRoom
  simp only
  rw [evictWhile_not_full domainRoom, evictWhile_not_full room]

theorem under_evictLru_sublist {h' : Held} {only : Option Text}
    (evicted : h.evictLru only = some h') (domain : Text) :
    (h'.under domain).Sublist (h.under domain) := by
  obtain ⟨⟨d, i, victim⟩, -, rfl⟩ := Option.map_eq_some_iff.mp evicted
  rw [under_replace]
  split
  next same => exact same ▸ List.eraseIdx_sublist _ _
  next => exact .refl _

theorem under_evictWhile_sublist (full : Held → Bool) (only : Option Text) (fuel : Nat) (h : Held)
    (domain : Text) : ((evictWhile full only fuel h).under domain).Sublist (h.under domain) := by
  induction fuel generalizing h with
  | zero => exact .refl _
  | succ fuel ih =>
      unfold evictWhile
      split
      · cases evicted : h.evictLru only with
        | none => exact .refl _
        | some h' => exact (ih h').trans (under_evictLru_sublist evicted domain)
      · exact .refl _

/-- Making room only takes away. -/
theorem under_makeRoom_sublist (capacity : Capacity) (arriving : Text) (h : Held)
    (domain : Text) : ((h.makeRoom capacity arriving).under domain).Sublist (h.under domain) :=
  (under_evictWhile_sublist _ _ _ _ domain).trans (under_evictWhile_sublist _ _ _ _ domain)

theorem Roomy.purgeExpired {capacity : Capacity} (roomy : h.Roomy capacity) :
    (h.purgeExpired now).Roomy capacity := by
  refine ⟨Nat.lt_of_le_of_lt (Nat.sub_le _ _) roomy.1, fun e member => ?_⟩
  have found := (Table.mem_entries_iff _).mp member
  simp only [Held.purgeExpired, Table.lookup_retain, Option.bind_eq_some_iff] at found
  obtain ⟨cookies, there, kept⟩ := found
  have short := roomy.2 _ ((Table.mem_entries_iff _).mpr there)
  simp only [keepUnexpired, Option.ite_none_left_eq_some, Option.some.injEq] at kept
  rw [← kept.2]
  exact Nat.lt_of_le_of_lt (List.length_filter_le _ _) short

/-- Each cookie is under its own domain, and under one key there is one cookie. -/
structure WellFormed (h : Held) : Prop where
  domains : ∀ domain, ∀ c ∈ h.under domain, c.domain = domain
  keys : ∀ domain, ((h.under domain).map CookieKey.of).Nodup

theorem WellFormed.eq_of_key (wf : h.WellFormed) {c d : Cookie} (mem_c : c ∈ h.under domain)
    (mem_d : d ∈ h.under domain') (same : CookieKey.of c = CookieKey.of d) : c = d := by
  have domains : domain = domain' := by
    rw [← wf.domains domain c mem_c, ← wf.domains domain' d mem_d]
    exact congrArg CookieKey.domain same
  subst domains
  exact List.inj_on_of_nodup_map (wf.keys domain) mem_c mem_d same

theorem WellFormed.purged (wf : h.WellFormed) (now : SystemTime) (domain : Text) :
    (((h.purgeExpired now).under domain).map CookieKey.of).Nodup := by
  rw [under_purgeExpired]
  exact (wf.keys domain).sublist (List.filter_sublist.map _)

theorem wellFormed_new : Held.new.WellFormed :=
  ⟨fun _ _ member => (by cases member), fun _ => .nil⟩

@[simp] theorem key_domain (c : Cookie) : (CookieKey.of c).domain = c.domain := rfl

/-- The cookie in the place of the one with its key. -/
def replacing (cookie : Cookie) (c : Cookie) : Cookie :=
  if CookieKey.of c = CookieKey.of cookie then cookie else c

theorem key_replacing (cookie c : Cookie) :
    CookieKey.of (replacing cookie c) = CookieKey.of c := by
  unfold replacing
  split
  next same => exact same.symm
  next => rfl

/-- Where no two share a key, replacing the first with the key replaces all of them. -/
theorem set_eq_map {cookie : Cookie} {l : List Cookie} (distinct : (l.map CookieKey.of).Nodup)
    {i : Nat} (found : (l.findIdx? fun c => CookieKey.of c = CookieKey.of cookie) = some i) :
    l.set i cookie = l.map (replacing cookie) := by
  induction l generalizing i with
  | nil => cases found
  | cons c l ih =>
      obtain ⟨fresh, distinct⟩ := List.nodup_cons.mp distinct
      rw [List.findIdx?_cons] at found
      split at found
      next same =>
        cases found
        have same : CookieKey.of c = CookieKey.of cookie := of_decide_eq_true same
        have others : ∀ d ∈ l, replacing cookie d = d := by
          intro d member
          refine if_neg fun again => fresh ?_
          rw [same, ← again]
          exact List.mem_map_of_mem member
        rw [List.set_cons_zero, List.map_cons, List.map_congr_left others, List.map_id',
          replacing, if_pos same]
      next differ =>
        obtain ⟨j, later, rfl⟩ := Option.map_eq_some_iff.mp found
        have differ : ¬ CookieKey.of c = CookieKey.of cookie := fun same => differ (by simp [same])
        rw [List.set_cons_succ, List.map_cons, ih distinct later, replacing, if_neg differ]

theorem mem_map_replacing {cookie x : Cookie} {l : List Cookie} :
    x ∈ l.map (replacing cookie) ↔ (x ∈ l ∧ CookieKey.of x ≠ CookieKey.of cookie) ∨
      (x = cookie ∧ ∃ c ∈ l, CookieKey.of c = CookieKey.of cookie) := by
  constructor
  · intro member
    obtain ⟨c, there, rfl⟩ := List.mem_map.mp member
    by_cases same : CookieKey.of c = CookieKey.of cookie
    · exact .inr ⟨if_pos same, c, there, same⟩
    · rw [replacing, if_neg same]
      exact .inl ⟨there, same⟩
  · intro member
    obtain ⟨there, differ⟩ | ⟨rfl, c, there, same⟩ := member
    · exact List.mem_map.mpr ⟨x, there, if_neg differ⟩
    · exact List.mem_map.mpr ⟨c, there, if_pos same⟩

section Put
variable {capacity : Capacity} {cookie : Cookie}

/-- What is under a domain once a cookie was put. -/
theorem mem_put (wf : h.WellFormed) (roomy : h.Roomy capacity) {x : Cookie} :
    x ∈ (h.put capacity cookie now).under domain ↔
      (x ∈ h.under domain ∧ x.isExpired now = false ∧ CookieKey.of x ≠ CookieKey.of cookie) ∨
        (domain = cookie.domain ∧ x = cookie ∧ cookie.isExpired now = false) := by
  have elsewhere : domain ≠ cookie.domain → x ∈ h.under domain →
      CookieKey.of x ≠ CookieKey.of cookie := by
    intro differ member same
    have under : x.domain = cookie.domain := congrArg CookieKey.domain same
    exact differ ((wf.domains domain x member).symm.trans under)
  have alive : x ∈ (h.purgeExpired now).under domain ↔
      x ∈ h.under domain ∧ x.isExpired now = false := by
    simp [under_purgeExpired]
  unfold put
  simp only
  split
  next expired =>
    rw [under_remove]
    split
    · simp [expired, alive, and_assoc]
    next differ =>
      rw [alive]
      have differ : domain ≠ cookie.domain := differ
      simp only [differ, false_and, or_false]
      exact ⟨fun h => ⟨h.1, h.2, elsewhere differ h.1⟩, fun h => ⟨h.1, h.2.1⟩⟩
  next fresh =>
    have fresh : cookie.isExpired now = false := by simpa using fresh
    split
    next i found =>
      rw [key_domain] at found ⊢
      rw [under_insert]
      by_cases same : domain = cookie.domain
      · subst same
        have held : ∃ c ∈ (h.purgeExpired now).under cookie.domain,
            CookieKey.of c = CookieKey.of cookie := by
          have any : ((h.purgeExpired now).under cookie.domain).any
              (fun c => CookieKey.of c = CookieKey.of cookie) = true := by
            rw [← List.findIdx?_isSome, found, Option.isSome_some]
          simpa using any
        rw [if_pos rfl, set_eq_map (wf.purged now cookie.domain) found, mem_map_replacing, alive]
        simp [held, fresh, and_assoc]
      · rw [if_neg same, alive]
        simp only [same, false_and, or_false]
        exact ⟨fun h => ⟨h.1, h.2, elsewhere same h.1⟩, fun h => ⟨h.1, h.2.1⟩⟩
    next missing =>
      have unheld := List.findIdx?_eq_none_iff.mp missing
      rw [makeRoom_roomy roomy.purgeExpired, under_push]
      by_cases same : domain = cookie.domain
      · subst same
        have other : x ∈ h.under cookie.domain → x.isExpired now = false →
            CookieKey.of x ≠ CookieKey.of cookie := by
          intro member lives
          exact of_decide_eq_false (unheld x (alive.mpr ⟨member, lives⟩))
        rw [if_pos rfl, List.mem_append, List.mem_singleton, alive]
        simp only [fresh, and_true, true_and]
        constructor
        · intro either
          exact either.imp_left fun h => ⟨h.1, h.2, other h.1 h.2⟩
        · intro either
          exact either.imp_left fun h => ⟨h.1, h.2.1⟩
      · rw [if_neg same, alive]
        simp only [same, false_and, or_false]
        exact ⟨fun h => ⟨h.1, h.2, elsewhere same h.1⟩, fun h => ⟨h.1, h.2.1⟩⟩

/-- What is under a domain once a cookie was put, whatever made room for it: the cookie, and
what was there before under other keys. -/
theorem of_mem_put (wf : h.WellFormed) {x : Cookie}
    (member : x ∈ (h.put capacity cookie now).under domain) :
    (x ∈ h.under domain ∧ CookieKey.of x ≠ CookieKey.of cookie) ∨
      (domain = cookie.domain ∧ x = cookie ∧ cookie.isExpired now = false) := by
  have before : x ∈ (h.purgeExpired now).under domain → x ∈ h.under domain := by
    rw [under_purgeExpired]
    exact List.mem_of_mem_filter
  have elsewhere : domain ≠ cookie.domain → x ∈ h.under domain →
      CookieKey.of x ≠ CookieKey.of cookie := by
    intro differ there same
    have under : x.domain = cookie.domain := congrArg CookieKey.domain same
    exact differ ((wf.domains domain x there).symm.trans under)
  unfold put at member
  simp only at member
  split at member
  · rw [under_remove] at member
    split at member
    · obtain ⟨there, differ⟩ := List.mem_filter.mp member
      exact .inl ⟨before there, of_decide_eq_true differ⟩
    next differ => exact .inl ⟨before member, elsewhere differ (before member)⟩
  next fresh =>
    have fresh : cookie.isExpired now = false := by simpa using fresh
    split at member
    next i found =>
      rw [key_domain] at found member
      rw [under_insert] at member
      split at member
      next same =>
        rw [set_eq_map (wf.purged now cookie.domain) found, mem_map_replacing, ← same] at member
        exact member.imp (fun h => ⟨before h.1, h.2⟩) fun h => ⟨same, h.1, fresh⟩
      next differ => exact .inl ⟨before member, elsewhere differ (before member)⟩
    next missing =>
      have unheld := List.findIdx?_eq_none_iff.mp missing
      rw [under_push] at member
      have roomMade := (under_makeRoom_sublist capacity cookie.domain
        (h.purgeExpired now) domain).subset
      split at member
      next same =>
        subst same
        rcases List.mem_append.mp member with there | single
        · have purged := roomMade there
          exact .inl ⟨before purged, of_decide_eq_false (unheld x purged)⟩
        · exact .inr ⟨rfl, List.mem_singleton.mp single, fresh⟩
      next differ =>
        have there := before (roomMade member)
        exact .inl ⟨there, elsewhere differ there⟩

theorem wellFormed_put (wf : h.WellFormed) : (h.put capacity cookie now).WellFormed := by
  constructor
  · intro domain x member
    obtain ⟨there, -⟩ | ⟨rfl, rfl, -⟩ := of_mem_put wf member
    · exact wf.domains domain x there
    · rfl
  · intro domain
    have purged := wf.purged now
    have roomMade := fun domain => (under_makeRoom_sublist capacity cookie.domain
      (h.purgeExpired now) domain).map CookieKey.of
    unfold put
    simp only
    split
    · rw [under_remove]
      split
      · exact (purged domain).sublist (List.filter_sublist.map _)
      · exact purged domain
    split
    next i found =>
      rw [under_insert]
      split
      · rw [set_eq_map (purged _) found, List.map_map]
        have same : CookieKey.of ∘ replacing cookie = CookieKey.of :=
          funext fun c => key_replacing cookie c
        rw [same]
        exact purged _
      · exact purged domain
    next missing =>
      have unheld := List.findIdx?_eq_none_iff.mp missing
      rw [under_push]
      split
      next same =>
        subst same
        rw [List.map_append, List.nodup_append]
        refine ⟨(purged _).sublist (roomMade _), List.nodup_singleton _,
          fun key member key' single => ?_⟩
        obtain ⟨c, there, rfl⟩ := List.mem_map.mp ((roomMade _).subset member)
        rw [List.mem_singleton.mp single]
        exact of_decide_eq_false (unheld c there)
      next => exact (purged domain).sublist (roomMade domain)

end Put

/-- The cookie with a new last-access time, if its key is one of these. -/
def touched (keys : List CookieKey) (now : SystemTime) (c : Cookie) : Cookie :=
  if CookieKey.of c ∈ keys then { c with lastAccess := now } else c

theorem key_touched (keys : List CookieKey) (now : SystemTime) (c : Cookie) :
    CookieKey.of (touched keys now c) = CookieKey.of c := by
  unfold touched
  split <;> rfl

theorem touched_cons (key : CookieKey) (keys : List CookieKey) (now : SystemTime) (c : Cookie) :
    touched keys now (touched [key] now c) = touched (key :: keys) now c := by
  by_cases this : CookieKey.of c = key
  · by_cases later : CookieKey.of c ∈ keys
    · have again : CookieKey.of { c with lastAccess := now } ∈ keys := later
      simp [touched, this, again]
    · have again : CookieKey.of { c with lastAccess := now } ∉ keys := later
      simp [touched, this, again]
  · simp [touched, this]

theorem under_touchOne (domains : ∀ domain, ∀ c ∈ h.under domain, c.domain = domain)
    (key : CookieKey) : (h.touchOne now key).under domain =
      (h.under domain).map (touched [key] now) := by
  have elsewhere : domain ≠ key.domain → (h.under domain).map (touched [key] now) =
      h.under domain := by
    intro differ
    have same : ∀ c ∈ h.under domain, touched [key] now c = c := by
      intro c member
      refine if_neg fun listed => differ ?_
      rw [← domains domain c member, ← List.mem_singleton.mp listed]
      rfl
    rw [List.map_congr_left same, List.map_id']
  unfold touchOne
  split
  next missing =>
    by_cases same : domain = key.domain
    · subst same
      simp [under, missing]
    · exact (elsewhere same).symm
  next cookies found =>
    rw [under_insert]
    by_cases same : domain = key.domain
    · subst same
      rw [if_pos rfl]
      simp [under, found, touched]
    · rw [if_neg same, elsewhere same]

theorem under_touch (domains : ∀ domain, ∀ c ∈ h.under domain, c.domain = domain)
    (keys : List CookieKey) : (h.touch keys now).under domain =
      (h.under domain).map (touched keys now) := by
  induction keys generalizing h with
  | nil =>
      have same : ∀ c : Cookie, touched [] now c = c := fun c => if_neg (by simp)
      rw [touch, List.foldl_nil, List.map_congr_left fun c _ => same c, List.map_id']
  | cons key keys ih =>
      have still : ∀ domain, ∀ c ∈ (h.touchOne now key).under domain, c.domain = domain := by
        intro domain c member
        rw [under_touchOne domains] at member
        obtain ⟨d, there, rfl⟩ := List.mem_map.mp member
        rw [← key_domain, key_touched]
        exact domains domain d there
      rw [touch, List.foldl_cons, ← touch, ih still, under_touchOne domains, List.map_map]
      exact List.map_congr_left fun c _ => touched_cons key keys now c

theorem wellFormed_touch (wf : h.WellFormed) (keys : List CookieKey) :
    (h.touch keys now).WellFormed := by
  constructor
  · intro domain c member
    rw [under_touch wf.domains] at member
    obtain ⟨d, there, rfl⟩ := List.mem_map.mp member
    rw [← key_domain, key_touched]
    exact wf.domains domain d there
  · intro domain
    have same : CookieKey.of ∘ touched keys now = CookieKey.of :=
      funext fun c => key_touched keys now c
    rw [under_touch wf.domains, List.map_map, same]
    exact wf.keys domain

theorem mem_get {domains : List Text} {c : Cookie} :
    c ∈ h.get domains ↔ ∃ domain ∈ domains, c ∈ h.under domain := List.mem_flatMap

/-- What is under different domains shares no key. -/
theorem nodup_get (wf : h.WellFormed) {domains : List Text} (distinct : domains.Nodup) :
    ((h.get domains).map CookieKey.of).Nodup := by
  rw [get, List.map_flatMap, List.nodup_flatMap]
  refine ⟨fun domain _ => wf.keys domain, distinct.imp fun differ => ?_⟩
  intro key here there
  obtain ⟨c, mem_c, rfl⟩ := List.mem_map.mp here
  obtain ⟨d, mem_d, same⟩ := List.mem_map.mp there
  refine differ ?_
  rw [← wf.domains _ c mem_c, ← wf.domains _ d mem_d]
  exact (congrArg CookieKey.domain same).symm

end Held
end HClient.Cookies
