import HClient.Cookies.KvEncoding
import HClient.Effect.Machine
import HClient.Kv.Calls

/-!
# The operations of the cookie store over the byte seam

One spec for each operation, run from a state in which each value of the namespace is a cookie
under its own key: what it leaves in the namespace and in the counter.
-/
namespace HClient.Cookies.KvStore

open Effect Kv

/-- One operation of the store. The counter of a cookie put is a `u64`. -/
inductive Op where
  | put (cookie : Cookie) (fits : cookie.SeqFits)
  | remove (key : CookieKey)
  | touch (keys : List CookieKey) (now : SystemTime)
  | clear

def Op.body (capacity : Capacity) : Op → Calls Unit
  | .put cookie _ => KvStore.put capacity cookie
  | .remove key => KvStore.remove key
  | .touch keys now => KvStore.touch keys now
  | .clear => KvStore.clear

/-- What an operation that nothing comes in between leaves. -/
def apply (capacity : Capacity) (s : Shared) (op : Op) : Shared :=
  ((op.body capacity).runWith (Call.handle ns) s).2

/-- The store, one operation after another. -/
def sequential (capacity : Capacity) : Machine Shared Op := fun s op => some (apply capacity s op)

abbrev values (s : Shared) : List (Text × Bytes) := s.values ns

def keys (s : Shared) : List Text := (values s).map Prod.fst

/-- How many cookies the namespace holds. -/
def count (s : Shared) : Nat := (values s).length

/-- Each value of the namespace is a cookie under its own key, and the only one there. -/
structure Kept (s : Shared) : Prop where
  tidy : s.Tidy ns
  own : ∀ e ∈ values s, ∃ c : Cookie, c.SeqFits ∧ encode c = some e.2 ∧
    keyFor (CookieKey.of c) = e.1

theorem kept_new : Kept Shared.new := ⟨Shared.tidy_new, by simp [values]⟩

variable {s : Shared} {capacity : Capacity}

theorem Kept.nodup (kept : Kept s) : (keys s).Nodup := kept.tidy.nodup

/-- What is read of a value. -/
theorem Kept.decoded (kept : Kept s) {e : Text × Bytes} (member : e ∈ values s) :
    ∃ c, decode e.2 = some c ∧ keyFor (CookieKey.of c) = e.1 := by
  obtain ⟨c, fits, encoded, under⟩ := kept.own e member
  exact ⟨c.kept, decode_encode fits encoded, under⟩

theorem scan_eq (stem : Text) (s : Shared) : (Call.handle ns (.scan stem) s).1 =
    (values s).filter fun e => stem.isPrefixOf e.1 := MemoryStore.scanWhere_eq _ _ _ _

theorem scan_all (s : Shared) : (Call.handle ns (.scan []) s).1 = values s := by
  rw [scan_eq]
  simp

theorem scanMany_eq (stems : List Text) (s : Shared) : (Call.handle ns (.scanMany stems) s).1 =
    (values s).filter fun e => stems.any fun stem => stem.isPrefixOf e.1 :=
  MemoryStore.scanWhere_eq _ _ (fun key => stems.any fun stem => stem.isPrefixOf key) _

theorem victims_eq (bound : Nat) (found : List (Text × Bytes)) : victims bound found =
    choose Victim.before Victim.key (found.length - bound) (found.filterMap victimOf) := rfl

/-- Every value found can be a victim, by its key. -/
theorem Kept.victims (kept : Kept s) {found : List (Text × Bytes)} (of : found ⊆ values s) :
    (found.filterMap victimOf).map Victim.key = found.map Prod.fst := by
  induction found with
  | nil => rfl
  | cons e found ih =>
      obtain ⟨c, read, -⟩ := kept.decoded (of List.mem_cons_self)
      have rest := ih fun e' member => of (List.mem_cons_of_mem _ member)
      rw [List.filterMap_cons_some (b := ⟨c.lastAccess, c.seq, e.1⟩) (by simp [victimOf, read]),
        List.map_cons, rest]
      rfl

theorem Kept.victims_subset (kept : Kept s) {found : List (Text × Bytes)} (of : found ⊆ values s)
    (bound : Nat) : KvStore.victims bound found ⊆ found.map Prod.fst := by
  rw [victims_eq, ← kept.victims of]
  exact choose_subset

theorem Kept.victims_nodup (kept : Kept s) {found : List (Text × Bytes)}
    (of : found.Sublist (values s)) (bound : Nat) : (KvStore.victims bound found).Nodup := by
  refine choose_nodup ?_
  rw [kept.victims of.subset]
  exact kept.nodup.sublist (of.map _)

theorem Kept.victims_length (kept : Kept s) {found : List (Text × Bytes)}
    (of : found ⊆ values s) (bound : Nat) :
    (KvStore.victims bound found).length = found.length - bound := by
  have all := congrArg List.length (kept.victims of)
  rw [List.length_map, List.length_map] at all
  rw [victims_eq, choose_length, all]
  omega

/-- What a put looks at: the whole namespace once the counter is above its bound, and the
cookie's domain before. -/
def found (capacity : Capacity) (domain : Text) (s : Shared) : List (Text × Bytes) :=
  if capacity.maxCookies < wrappingSucc s.held then values s
  else (values s).filter fun e => (prefixFor domain).isPrefixOf e.1

def boundOf (capacity : Capacity) (s : Shared) : Nat :=
  if capacity.maxCookies < wrappingSucc s.held then capacity.maxCookies - 1
  else capacity.maxPerDomain - 1

/-- The keys that a put of a cookie of the domain evicts. -/
def evicted (capacity : Capacity) (domain : Text) (s : Shared) : List Text :=
  victims (boundOf capacity s) (found capacity domain s)

theorem found_sublist (capacity : Capacity) (domain : Text) (s : Shared) :
    (found capacity domain s).Sublist (values s) := by
  unfold found
  split
  · exact .refl _
  · exact List.filter_sublist

/-- A put is an addition to the counter and an eviction with the write behind it. -/
theorem put_eq {cookie : Cookie} {value : Bytes} (encoded : encode cookie = some value)
    (s : Shared) : (put capacity cookie).runWith (Call.handle ns) s =
      (evict (decide (capacity.maxCookies < wrappingSucc s.held))
        (evicted capacity cookie.domain s)
        [.remove (keyFor (CookieKey.of cookie)), .put (keyFor (CookieKey.of cookie)) value]).runWith
        (Call.handle ns) { s with held := wrappingSucc s.held } := by
  have same : values { s with held := wrappingSucc s.held } = values s := rfl
  unfold put evicted found boundOf
  rw [encoded]
  simp only [Program.bind_eq, Program.perform_bind, Program.runWith_call]
  by_cases over_ : capacity.maxCookies < wrappingSucc s.held
  · have answer := scan_all { s with held := wrappingSucc s.held }
    simp only [Call.handle] at answer ⊢
    simp only [over_, if_true, Program.runWith_call, decide_true, Call.handle, answer, same]
  · have answer := scan_eq (prefixFor cookie.domain) { s with held := wrappingSucc s.held }
    simp only [Call.handle] at answer ⊢
    simp only [over_, if_false, Program.runWith_call, decide_false, Call.handle, answer, same]

/-- A put leaves the cookie, and what was neither evicted nor under its key. -/
theorem put_shows (kept : Kept s) {cookie : Cookie} {fits : cookie.SeqFits} {value : Bytes}
    (encoded : encode cookie = some value) :
    Shared.Shows ns (apply capacity s (.put cookie fits))
      ((keyFor (CookieKey.of cookie), value) :: (values s).filter fun e =>
        e.1 ∉ evicted capacity cookie.domain s ∧ e.1 ≠ keyFor (CookieKey.of cookie)) := by
  have tidy : Shared.Tidy ns { s with held := wrappingSucc s.held } := kept.tidy
  unfold apply Op.body
  rw [put_eq encoded]
  exact Shared.shows_evict tidy _ _ _ value

theorem put_unencoded {cookie : Cookie} {fits : cookie.SeqFits} (encoded : encode cookie = none) :
    apply capacity s (.put cookie fits) = s := by
  simp [apply, Op.body, put, encoded]

theorem remove_shows (kept : Kept s) (key : CookieKey) :
    Shared.Shows ns (apply capacity s (.remove key))
      ((values s).filter fun e => e.1 ≠ keyFor key) := by
  have tidy : Shared.Tidy ns (Call.handle ns .fetchSub s).2 := kept.tidy
  exact Shared.shows_remove tidy (keyFor key)

theorem clear_shows : Shared.Shows ns (apply capacity s .clear) [] :=
  Shared.shows_clear ns _

/-- What a touch writes for a value that was found. -/
def rewriteOf (keys : List Text) (now : SystemTime) (e : Text × Bytes) : Option (Text × Bytes) :=
  if e.1 ∈ keys then
    ((decode e.2).bind fun c => encode { c with lastAccess := now }).map fun v => (e.1, v)
  else none

/-- The values that a touch writes. -/
def rewritten (keys : List CookieKey) (now : SystemTime) (s : Shared) : List (Text × Bytes) :=
  (values s).filterMap (rewriteOf (keys.map keyFor) now)

theorem rewriteOf_eq_some {keys : List Text} {now : SystemTime} {e w : Text × Bytes} :
    rewriteOf keys now e = some w ↔ e.1 ∈ keys ∧ w.1 = e.1 ∧
      ∃ c, decode e.2 = some c ∧ encode { c with lastAccess := now } = some w.2 := by
  unfold rewriteOf
  split
  next listed =>
    simp only [listed, true_and, Option.map_eq_some_iff, Option.bind_eq_some_iff]
    constructor
    · intro h
      obtain ⟨v, ⟨c, read, written⟩, rfl⟩ := h
      exact ⟨rfl, c, read, written⟩
    · intro h
      obtain ⟨same, c, read, written⟩ := h
      exact ⟨w.2, ⟨c, read, written⟩, Prod.ext same.symm rfl⟩
  next unlisted => simp [unlisted]

theorem touchSteps_eq (keys : List Text) (now : SystemTime) (found : List (Text × Bytes)) :
    touchSteps keys now found = writes (found.filterMap (rewriteOf keys now)) := by
  induction found with
  | nil => rfl
  | cons e found ih =>
      have first : touchSteps keys now (e :: found) =
          touchSteps keys now [e] ++ touchSteps keys now found := by
        simp [touchSteps]
      rw [first, ih]
      cases written : rewriteOf keys now e with
      | none =>
          rw [List.filterMap_cons_none written]
          have nothing : touchSteps keys now [e] = [] := by
            unfold rewriteOf at written
            split at written
            next listed =>
              simp [touchSteps, listed, Option.map_eq_none_iff.mp written]
            next unlisted => simp [touchSteps, unlisted]
          rw [nothing, List.nil_append]
      | some w =>
          rw [List.filterMap_cons_some written]
          obtain ⟨listed, same, c, read, encoded⟩ := rewriteOf_eq_some.mp written
          have one : touchSteps keys now [e] = [.remove w.1, .put w.1 w.2] := by
            simp [touchSteps, listed, read, encoded, same]
          rw [one]
          rfl

theorem mem_stemsOf {keys : List CookieKey} {stem : Text} :
    stem ∈ stemsOf keys ↔ ∃ k ∈ keys, prefixFor k.domain = stem := by
  simp [stemsOf, List.mem_insertionSort]

theorem prefixFor_isPrefixOf (key : CookieKey) :
    (prefixFor key.domain).isPrefixOf (keyFor key) = true := by
  rw [List.isPrefixOf_iff_prefix]
  unfold keyFor
  simp only [List.append_assoc]
  exact List.prefix_append _ _

/-- The scan of the listed keys' domains finds each of them that is held. -/
theorem rewritten_found (keys : List CookieKey) (now : SystemTime) (s : Shared) :
    ((values s).filter fun e => (stemsOf keys).any fun stem => stem.isPrefixOf e.1).filterMap
      (rewriteOf (keys.map keyFor) now) = rewritten keys now s := by
  unfold rewritten
  rw [List.filterMap_filter]
  refine List.filterMap_congr fun e _ => ?_
  by_cases listed : e.1 ∈ keys.map keyFor
  · obtain ⟨k, member, same⟩ := List.mem_map.mp listed
    have stem : (stemsOf keys).any (fun stem => stem.isPrefixOf e.1) = true := by
      rw [List.any_eq_true]
      refine ⟨prefixFor k.domain, mem_stemsOf.mpr ⟨k, member, rfl⟩, ?_⟩
      rw [← same]
      exact prefixFor_isPrefixOf k
    rw [if_pos stem]
  · simp [rewriteOf, listed]

theorem rewritten_key {keys : List CookieKey} {now : SystemTime} {w : Text × Bytes}
    (member : w ∈ rewritten keys now s) : ∃ v c, (w.1, v) ∈ values s ∧ w.1 ∈ keys.map keyFor ∧
      decode v = some c ∧ encode { c with lastAccess := now } = some w.2 := by
  obtain ⟨e, held, written⟩ := List.mem_filterMap.mp member
  obtain ⟨listed, same, c, read, encoded⟩ := rewriteOf_eq_some.mp written
  rw [same]
  exact ⟨e.2, c, held, listed, read, encoded⟩

theorem rewritten_keys_sublist (keys : List CookieKey) (now : SystemTime) (s : Shared) :
    ((rewritten keys now s).map Prod.fst).Sublist (KvStore.keys s) := by
  unfold rewritten KvStore.keys
  induction values s with
  | nil => exact .slnil
  | cons e rest ih =>
      cases written : rewriteOf (keys.map keyFor) now e with
      | none =>
          rw [List.filterMap_cons_none written]
          exact .cons _ ih
      | some w =>
          rw [List.filterMap_cons_some written, List.map_cons, List.map_cons,
            (rewriteOf_eq_some.mp written).2.1]
          exact .cons_cons _ ih

theorem touch_eq (keys : List CookieKey) (now : SystemTime) (s : Shared) :
    apply capacity s (.touch keys now) =
      ((runSteps (writes (rewritten keys now s))).runWith (Call.handle ns) s).2 := by
  unfold apply Op.body touch
  simp only
  split
  next none_listed =>
    subst none_listed
    have nothing : rewritten [] now s = [] := by
      simp [rewritten, rewriteOf]
    rw [nothing]
    rfl
  next =>
    have answer := scanMany_eq (stemsOf keys) s
    simp only [Program.bind_eq, Program.perform_bind, Program.runWith_call]
    rw [answer, touchSteps_eq, rewritten_found]
    rfl

theorem touch_shows (kept : Kept s) (keys : List CookieKey) (now : SystemTime) :
    Shared.Shows ns (apply capacity s (.touch keys now))
      ((rewritten keys now s).reverse ++
        (values s).filter fun e => e.1 ∉ (rewritten keys now s).map Prod.fst) := by
  rw [touch_eq]
  exact Shared.shows_writes kept.tidy
    ((rewritten_keys_sublist keys now s).nodup kept.nodup)

/-! ## What every operation keeps -/

theorem kept_of_shows {s' : Shared} {l : List (Text × Bytes)} (shows_ : Shared.Shows ns s' l)
    (own : ∀ e ∈ l, ∃ c : Cookie, c.SeqFits ∧ encode c = some e.2 ∧
      keyFor (CookieKey.of c) = e.1) : Kept s' :=
  ⟨shows_.tidy, fun e member => own e (shows_.values ▸ member)⟩

theorem Kept.apply (kept : Kept s) (op : Op) : Kept (KvStore.apply capacity s op) := by
  cases op with
  | put cookie fits =>
      cases encoded : encode cookie with
      | none =>
          rw [put_unencoded encoded]
          exact kept
      | some value =>
          refine kept_of_shows (put_shows kept encoded) fun e member => ?_
          rcases List.mem_cons.mp member with rfl | rest
          · exact ⟨cookie, fits, encoded, rfl⟩
          · exact kept.own e (List.mem_of_mem_filter rest)
  | remove key =>
      exact kept_of_shows (remove_shows kept key) fun e member =>
        kept.own e (List.mem_of_mem_filter member)
  | touch keys now =>
      refine kept_of_shows (touch_shows kept keys now) fun e member => ?_
      rcases List.mem_append.mp member with written | rest
      · obtain ⟨v, c, held, -, read, encoded⟩ := rewritten_key (List.mem_reverse.mp written)
        obtain ⟨c₀, fits, encoded₀, under⟩ := kept.own _ held
        have same : c = c₀.kept := by
          rw [decode_encode fits encoded₀] at read
          exact (Option.some.inj read).symm
        subst same
        exact ⟨{ c₀.kept with lastAccess := now }, fits, encoded, under⟩
      · exact kept.own e (List.mem_of_mem_filter rest)
  | clear => exact kept_of_shows clear_shows nofun

theorem count_touch (kept : Kept s) (keys : List CookieKey) (now : SystemTime) :
    count (KvStore.apply capacity s (.touch keys now)) = count s := by
  have sub := rewritten_keys_sublist keys now s
  have dropped := length_filter_keys kept.nodup (sub.nodup kept.nodup) sub.subset
  have after : values (KvStore.apply capacity s (.touch keys now)) = _ :=
    (touch_shows kept keys now).values
  unfold count
  rw [after, List.length_append, List.length_reverse]
  rw [List.length_map] at dropped
  change (rewritten keys now s).length + ((values s).filter _).length = (values s).length
  omega

theorem touch_held (keys : List CookieKey) (now : SystemTime) (s : Shared) :
    (KvStore.apply capacity s (.touch keys now)).held = s.held := by
  rw [touch_eq]
  exact Shared.runSteps_held _ _

theorem count_remove (kept : Kept s) (key : CookieKey) :
    count (KvStore.apply capacity s (.remove key)) +
      (if keyFor key ∈ KvStore.keys s then 1 else 0) = count s := by
  have after : values (KvStore.apply capacity s (.remove key)) = _ :=
    (remove_shows kept key).values
  unfold count
  rw [after]
  exact length_filter_ne kept.nodup (keyFor key)

/-- How many are left once a cookie was put. -/
theorem count_put (kept : Kept s) {cookie : Cookie} {fits : cookie.SeqFits} {value : Bytes}
    (encoded : encode cookie = some value) :
    let key := keyFor (CookieKey.of cookie)
    let gone := evicted capacity cookie.domain s
    count (KvStore.apply capacity s (.put cookie fits)) + gone.length +
      (if key ∈ KvStore.keys s ∧ key ∉ gone then 1 else 0) = count s + 1 := by
  intro key gone
  have sub := found_sublist capacity cookie.domain s
  have after : values (KvStore.apply capacity s (.put cookie fits)) = _ :=
    (put_shows kept encoded).values
  unfold count
  rw [after]
  exact length_evicted kept.nodup (kept.victims_nodup sub _)
    (fun k member => (sub.map Prod.fst).subset (kept.victims_subset sub.subset _ member)) key value

end HClient.Cookies.KvStore
