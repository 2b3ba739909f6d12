import HClient.Cookies.Checked
import HClient.Cookies.KvRuns

/-!
# The bounds of the cookie store

A put looks at one of the two bounds, and the counter decides at which. The other one it can
break: that of the domain once the counter is above the store's bound, and the store's while
the counter is not.
-/
namespace HClient.Cookies.KvStore

open Effect Kv Shared

variable {capacity : Capacity} {s : Shared}

/-- The value is a cookie of the domain. -/
def inDomain (domain : Text) (e : Text × Bytes) : Bool :=
  (decode e.2).map Cookie.domain = some domain

def domainCount (domain : Text) (s : Shared) : Nat := ((values s).filter (inDomain domain)).length

/-- Both bounds are kept. -/
structure Within (capacity : Capacity) (s : Shared) : Prop where
  total : count s ≤ capacity.maxCookies
  perDomain : ∀ domain, domainCount domain s ≤ capacity.maxPerDomain

/-- After a put both bounds are kept. -/
def PutWithin (capacity : Capacity) (s : Shared) (op : Op) : Prop :=
  match op with
  | .put _ _ => Within capacity (apply capacity s op)
  | _ => True

/-- The first of the values in the order that evictions go by. -/
def leastRecent (s : Shared) : Option Text :=
  (((values s).filterMap victimOf).insertionSort fun a b => a.before b).head?.map Victim.key

/-- The counter is above the store's bound once the put has been counted. -/
def CountsFull (capacity : Capacity) (s : Shared) : Prop :=
  capacity.maxCookies < wrappingSucc s.held

instance (capacity : Capacity) (s : Shared) : Decidable (CountsFull capacity s) :=
  inferInstanceAs (Decidable (_ < _))

/-- A put that stores something finds room under the bound it does not look at. With the counter
above the store's bound that is the domain's: it is not full, or it gives up the cookie replaced
or the one the store evicts. Otherwise it is the store's: it is not full, or the key is there,
or the domain evicts. -/
def FindsRoom (capacity : Capacity) (s : Shared) : Op → Prop
  | .put cookie _ => (encode cookie).isSome →
      if CountsFull capacity s then
        domainCount cookie.domain s < capacity.maxPerDomain ∨
          ∃ e ∈ values s, inDomain cookie.domain e ∧
            (e.1 = keyFor (CookieKey.of cookie) ∨
              (capacity.maxCookies ≤ count s ∧ leastRecent s = some e.1))
      else
        count s < capacity.maxCookies ∨ keyFor (CookieKey.of cookie) ∈ keys s ∨
          capacity.maxPerDomain ≤
            ((values s).filter fun e => (prefixFor cookie.domain).isPrefixOf e.1).length
  | _ => True

instance (capacity : Capacity) (s : Shared) (op : Op) : Decidable (FindsRoom capacity s op) := by
  cases op <;> unfold FindsRoom <;> infer_instance

theorem domainCount_put (kept : Kept s) {cookie : Cookie} {fits : cookie.SeqFits} {value : Bytes}
    (encoded : encode cookie = some value) (domain : Text) :
    domainCount domain (apply capacity s (.put cookie fits)) =
      (((values s).filter (inDomain domain)).filter fun e =>
        e.1 ∉ evicted capacity cookie.domain s ∧ e.1 ≠ keyFor (CookieKey.of cookie)).length +
        if domain = cookie.domain then 1 else 0 := by
  have after : values (apply capacity s (.put cookie fits)) = _ :=
    (put_shows kept encoded).values
  have own : inDomain domain (keyFor (CookieKey.of cookie), value) =
      decide (domain = cookie.domain) := by
    have read : (decode value).map Cookie.domain = some cookie.domain := by
      rw [decode_encode fits encoded]
      rfl
    simp [inDomain, read, eq_comm]
  unfold domainCount
  rw [after, List.filter_cons, own, List.filter_filter, List.filter_filter]
  have swap : ((values s).filter fun e => inDomain domain e && decide
      (e.1 ∉ evicted capacity cookie.domain s ∧ e.1 ≠ keyFor (CookieKey.of cookie))) =
      (values s).filter fun e => decide (e.1 ∉ evicted capacity cookie.domain s ∧
        e.1 ≠ keyFor (CookieKey.of cookie)) && inDomain domain e :=
    List.filter_congr fun e _ => Bool.and_comm _ _
  rw [← swap]
  by_cases same : domain = cookie.domain <;> simp [same]

/-- Under the store's bound one cookie is evicted at most, and it is the least recently used. -/
theorem mem_evicted_full (within : count s ≤ capacity.maxCookies) (atLeastOne : 1 ≤ capacity.maxCookies)
    (full : CountsFull capacity s) {domain : Text} {key : Text} :
    key ∈ evicted capacity domain s ↔
      capacity.maxCookies ≤ count s ∧ leastRecent s = some key := by
  have whole : found capacity domain s = values s := if_pos full
  have bound : boundOf capacity s = capacity.maxCookies - 1 := if_pos full
  unfold evicted
  rw [whole, bound, victims_eq]
  change key ∈ choose Victim.before Victim.key (count s - (capacity.maxCookies - 1)) _ ↔ _
  by_cases reached : capacity.maxCookies ≤ count s
  · have one : count s - (capacity.maxCookies - 1) = 1 := by omega
    rw [one, choose_one]
    simp [leastRecent, reached]
  · have none_over : count s - (capacity.maxCookies - 1) = 0 := by omega
    rw [none_over]
    simp [choose, reached]

/-- A cookie's key begins with the prefix of its domain. -/
theorem Kept.found_of_inDomain (kept : Kept s) {domain : Text} {e : Text × Bytes}
    (member : e ∈ values s) (inside : inDomain domain e = true) :
    (prefixFor domain).isPrefixOf e.1 = true := by
  obtain ⟨c, read, under⟩ := kept.decoded member
  have same : c.domain = domain := by
    simpa [inDomain, read] using inside
  rw [← under, ← same]
  exact prefixFor_isPrefixOf (CookieKey.of c)

section Put
variable {cookie : Cookie} {fits : cookie.SeqFits} {value : Bytes}

/-- What a put leaves of the domains it is not about. -/
theorem domainCount_put_other (kept : Kept s) (within : Within capacity s)
    (encoded : encode cookie = some value) {domain : Text} (other : domain ≠ cookie.domain) :
    domainCount domain (apply capacity s (.put cookie fits)) ≤ capacity.maxPerDomain := by
  rw [domainCount_put kept encoded, if_neg other, Nat.add_zero]
  exact (List.length_filter_le _ _).trans (within.perDomain domain)

/-- With the counter above the store's bound the put breaks at most the domain's. -/
theorem put_within_full (kept : Kept s) (within : Within capacity s)
    (oneCookie : 1 ≤ capacity.maxCookies) (full : CountsFull capacity s)
    (encoded : encode cookie = some value) :
    Within capacity (apply capacity s (.put cookie fits)) ↔
      domainCount cookie.domain s < capacity.maxPerDomain ∨
        ∃ e ∈ values s, inDomain cookie.domain e ∧
          (e.1 = keyFor (CookieKey.of cookie) ∨
            (capacity.maxCookies ≤ count s ∧ leastRecent s = some e.1)) := by
  have counted := @count_put s capacity kept _ fits _ encoded
  simp only at counted
  have gone : (evicted capacity cookie.domain s).length = count s - (capacity.maxCookies - 1) := by
    have whole : found capacity cookie.domain s = values s := if_pos full
    have bound : boundOf capacity s = capacity.maxCookies - 1 := if_pos full
    unfold evicted
    rw [whole, bound, kept.victims_length fun _ member => member]
    rfl
  have total : count (apply capacity s (.put cookie fits)) ≤ capacity.maxCookies := by omega
  have own := @domainCount_put capacity s kept _ fits _ encoded cookie.domain
  rw [if_pos rfl] at own
  have fewer : (((values s).filter (inDomain cookie.domain)).filter fun e =>
      e.1 ∉ evicted capacity cookie.domain s ∧ e.1 ≠ keyFor (CookieKey.of cookie)).length <
        domainCount cookie.domain s ↔
      ∃ e ∈ values s, inDomain cookie.domain e ∧ (e.1 = keyFor (CookieKey.of cookie) ∨
        (capacity.maxCookies ≤ count s ∧ leastRecent s = some e.1)) := by
    unfold domainCount
    rw [List.length_filter_lt_length_iff_exists]
    simp only [List.mem_filter, mem_evicted_full within.total oneCookie full, decide_eq_true_eq]
    constructor
    · intro h
      obtain ⟨e, ⟨member, inside⟩, dropped⟩ := h
      refine ⟨e, member, inside, ?_⟩
      by_cases same : e.1 = keyFor (CookieKey.of cookie)
      · exact .inl same
      · exact .inr (by_contra fun stays => dropped ⟨stays, same⟩)
    · intro h
      obtain ⟨e, member, inside, same | least⟩ := h
      · exact ⟨e, ⟨member, inside⟩, fun kept => kept.2 same⟩
      · exact ⟨e, ⟨member, inside⟩, fun kept => kept.1 least⟩
  have atMost : (((values s).filter (inDomain cookie.domain)).filter fun e =>
      e.1 ∉ evicted capacity cookie.domain s ∧ e.1 ≠ keyFor (CookieKey.of cookie)).length ≤
        domainCount cookie.domain s := List.length_filter_le _ _
  have before := within.perDomain cookie.domain
  rw [← fewer]
  constructor
  · intro after
    have bounded := after.perDomain cookie.domain
    omega
  · intro room
    refine ⟨total, fun domain => ?_⟩
    by_cases same : domain = cookie.domain
    · subst same
      omega
    · exact domainCount_put_other kept within encoded same

/-- With the counter not above it the put breaks at most the store's bound. -/
theorem put_within_domain (kept : Kept s) (within : Within capacity s)
    (onePerDomain : 1 ≤ capacity.maxPerDomain) (notFull : ¬ CountsFull capacity s)
    (encoded : encode cookie = some value) :
    Within capacity (apply capacity s (.put cookie fits)) ↔
      count s < capacity.maxCookies ∨ keyFor (CookieKey.of cookie) ∈ keys s ∨
        capacity.maxPerDomain ≤
          ((values s).filter fun e => (prefixFor cookie.domain).isPrefixOf e.1).length := by
  have counted := @count_put s capacity kept _ fits _ encoded
  simp only at counted
  have group : found capacity cookie.domain s =
      (values s).filter fun e => (prefixFor cookie.domain).isPrefixOf e.1 := if_neg notFull
  have bound : boundOf capacity s = capacity.maxPerDomain - 1 := if_neg notFull
  have sub := found_sublist capacity cookie.domain s
  have gone : (evicted capacity cookie.domain s).length =
      (found capacity cookie.domain s).length - (capacity.maxPerDomain - 1) := by
    unfold evicted
    rw [bound, kept.victims_length sub.subset]
  have before := within.total
  rw [← group]
  constructor
  · intro after
    have bounded := after.total
    by_cases there : keyFor (CookieKey.of cookie) ∈ keys s
    · exact .inr (.inl there)
    · simp only [there, false_and, if_false] at counted
      omega
  · intro room
    constructor
    · by_cases there : keyFor (CookieKey.of cookie) ∈ keys s ∧
          keyFor (CookieKey.of cookie) ∉ evicted capacity cookie.domain s
      · rw [if_pos there] at counted
        omega
      · rw [if_neg there] at counted
        rcases room with below | held | reached
        · omega
        · have chosen : keyFor (CookieKey.of cookie) ∈ evicted capacity cookie.domain s :=
            by_contra fun stays => there ⟨held, stays⟩
          have some_gone := List.length_pos_of_mem chosen
          omega
        · omega
    · intro domain
      by_cases same : domain = cookie.domain
      · subst same
        have different : (evicted capacity cookie.domain s).Nodup := kept.victims_nodup sub _
        have distinct : ((found capacity cookie.domain s).map Prod.fst).Nodup :=
          kept.nodup.sublist (sub.map _)
        have left := length_filter_keys distinct different
          (kept.victims_subset sub.subset _)
        have few : (((values s).filter (inDomain cookie.domain)).filter fun e =>
            e.1 ∉ evicted capacity cookie.domain s ∧
              e.1 ≠ keyFor (CookieKey.of cookie)).length ≤
            ((found capacity cookie.domain s).filter fun e =>
              e.1 ∉ evicted capacity cookie.domain s).length := by
          rw [group, List.filter_filter, List.filter_filter, ← List.countP_eq_length_filter,
            ← List.countP_eq_length_filter]
          refine List.countP_mono_left fun e member counts => ?_
          simp only [Bool.and_eq_true, decide_eq_true_eq] at counts ⊢
          exact ⟨counts.1.1, kept.found_of_inDomain member counts.2⟩
        rw [domainCount_put kept encoded, if_pos rfl]
        omega
      · exact domainCount_put_other kept within encoded same

end Put

/-! ## The other operations -/

theorem Within.remove (within : Within capacity s) (kept : Kept s) (key : CookieKey) :
    Within capacity (apply capacity s (.remove key)) := by
  have after : values (apply capacity s (.remove key)) = _ := (remove_shows kept key).values
  constructor
  · unfold count
    rw [after]
    exact (List.length_filter_le _ _).trans within.total
  · intro domain
    unfold domainCount
    rw [after]
    exact (List.filter_sublist.filter _).length_le.trans (within.perDomain domain)

/-- A cookie that was touched is of the domain it was of. -/
theorem domainCount_touch_le (kept : Kept s) (keys : List CookieKey) (now : SystemTime)
    (domain : Text) :
    domainCount domain (apply capacity s (.touch keys now)) ≤ domainCount domain s := by
  have shown := @touch_shows s capacity kept keys now
  have after : values (apply capacity s (.touch keys now)) = _ := shown.values
  have distinct : (((values (apply capacity s (.touch keys now))).filter
      (inDomain domain)).map Prod.fst).Nodup :=
    (kept.apply (.touch keys now)).nodup.sublist (List.filter_sublist.map _)
  have inside : ((values (apply capacity s (.touch keys now))).filter
      (inDomain domain)).map Prod.fst ⊆ ((values s).filter (inDomain domain)).map Prod.fst := by
    intro key member
    obtain ⟨w, there, rfl⟩ := List.mem_map.mp member
    obtain ⟨there, own⟩ := List.mem_filter.mp there
    rw [after] at there
    rcases List.mem_append.mp there with written | rest
    · obtain ⟨v, c, held, -, read, encoded⟩ := rewritten_key (List.mem_reverse.mp written)
      obtain ⟨c₀, fits, encoded₀, -⟩ := kept.own _ held
      have same : c = c₀.kept := by
        rw [decode_encode fits encoded₀] at read
        exact (Option.some.inj read).symm
      have seqFits : Cookie.SeqFits { c with lastAccess := now } := by
        rw [same]
        exact fits
      have domains : c.domain = domain := by
        simpa [inDomain, decode_encode seqFits encoded, Cookie.kept] using own
      refine List.mem_map.mpr ⟨(w.1, v), List.mem_filter.mpr ⟨held, ?_⟩, rfl⟩
      simp [inDomain, read, domains]
    · exact List.mem_map_of_mem (List.mem_filter.mpr ⟨List.mem_of_mem_filter rest, own⟩)
  have fewer := (distinct.subperm inside).length_le
  rw [List.length_map, List.length_map] at fewer
  exact fewer

theorem Within.apply (within : Within capacity s) (kept : Kept s) {op : Op}
    (right : PutWithin capacity s op) : Within capacity (apply capacity s op) := by
  cases op with
  | put cookie fits => exact right
  | remove key => exact within.remove kept key
  | touch keys now =>
      constructor
      · rw [count_touch kept]
        exact within.total
      · exact fun domain => (domainCount_touch_le kept keys now domain).trans
          (within.perDomain domain)
  | clear =>
      have nothing : values (KvStore.apply capacity s .clear) = [] := clear_shows.values
      constructor
      · simp [count, nothing]
      · simp [domainCount, nothing]

theorem putWithin_iff (oneCookie : 1 ≤ capacity.maxCookies)
    (onePerDomain : 1 ≤ capacity.maxPerDomain) (kept : Kept s) (within : Within capacity s)
    (op : Op) : PutWithin capacity s op ↔ FindsRoom capacity s op := by
  cases op with
  | put cookie fits =>
      cases encoded : encode cookie with
      | none =>
          simp only [PutWithin, FindsRoom, encoded, Option.isSome_none, Bool.false_eq_true,
            false_imp_iff, iff_true, put_unencoded encoded]
          exact within
      | some value =>
          simp only [PutWithin, FindsRoom, encoded, Option.isSome_some, true_imp_iff]
          split
          next full => exact put_within_full kept within oneCookie full encoded
          next notFull => exact put_within_domain kept within onePerDomain notFull encoded
  | _ => exact ⟨fun _ => trivial, fun _ => trivial⟩

/-- In a run of operations on an empty store every put leaves both bounds kept exactly where
each of them finds room. -/
theorem put_within_iff (capacity : Capacity) (oneCookie : 1 ≤ capacity.maxCookies)
    (onePerDomain : 1 ≤ capacity.maxPerDomain) (ops : List Op) :
    (sequential capacity).Always (PutWithin capacity) Shared.new ops ↔
      (sequential capacity).Always (FindsRoom capacity) Shared.new ops := by
  have start : Kept Shared.new ∧ Within capacity Shared.new :=
    ⟨kept_new, by simp [count], by simp [domainCount]⟩
  refine Machine.Always.iff_of_invariant (fun s => Kept s ∧ Within capacity s) ?_
    (fun s op inv => putWithin_iff oneCookie onePerDomain inv.1 inv.2 op) start
  intro s op s' right inv stepped
  cases stepped
  exact ⟨inv.1.apply op, inv.2.apply inv.1 right⟩

section Example

/-- One cookie for a domain: a second one takes its place. -/
theorem put_within_evicting :
    (sequential ⟨2, 1⟩).Always (PutWithin ⟨2, 1⟩) Shared.new
      [.put (sessionCookie "a" "com" 0) (by decide), .put (sessionCookie "b" "com" 1) (by decide)] :=
  (put_within_iff ⟨2, 1⟩ (by decide) (by decide) _).mpr (by decide +kernel)

/-- The second put of a cookie counts again, and then the third looks at the store's bound and
breaks its domain's. -/
theorem put_replaced_breaks_domain : ¬ (sequential ⟨2, 1⟩).Always (PutWithin ⟨2, 1⟩) Shared.new
    [.put (sessionCookie "a" "com" 0) (by decide), .put (sessionCookie "a" "com" 0) (by decide),
      .put (sessionCookie "b" "com" 1) (by decide)] := by
  intro right
  have third := ((right.2 _ rfl).2 _ rfl).1
  exact absurd (third.perDomain "com".toList) (by decide +kernel)

end Example
end HClient.Cookies.KvStore
