import HClient.Cache.Contents

/-!
# The counter beside the variants

`held` is kept next to the map and moved by hand by every call. In every state that the calls
lead to it counts the variants, stays within the capacity, and no two variants of a key have one
selector; what a put evicts is the oldest.
-/
namespace HClient.Cache

namespace Held
variable {h : Held} {key : Key} {capacity : Nat}

/-- How many variants the table holds. -/
def count (h : Held) : Nat := Table.weight List.length h.entries

/-- No two variants have one selector. -/
def Apart (variants : List StoredResponse) : Prop :=
  variants.Pairwise fun a b => a.selector ≠ b.selector

/-- The counter counts the table, no key is kept without a variant, and the variants of a key are
told apart by their selectors. -/
structure Counted (h : Held) : Prop where
  held : h.held = h.count
  nonempty : ∀ key, h.entries.lookup key ≠ some []
  apart : ∀ key, Apart (h.get key)

theorem counted_new : new.Counted where
  held := rfl
  nonempty key found := by cases found
  apart key := .nil

theorem get_of_lookup {variants : List StoredResponse} (found : h.entries.lookup key = some variants) :
    h.get key = variants := by
  rw [get, found]
  rfl

theorem entries_replace (h : Held) (key : Key) (variants : List StoredResponse) (held : Nat) :
    (h.replace key variants held).entries =
      if variants = [] then h.entries.erase key else h.entries.insert key variants := by
  unfold replace
  split <;> rfl

theorem count_replace (h : Held) (key : Key) (variants : List StoredResponse) (held : Nat) :
    (h.replace key variants held).count =
      variants.length + Table.weight List.length (h.entries.erase key) := by
  rw [count, entries_replace]
  exact Table.weight_keepNonempty _ _ _

theorem held_replace (h : Held) (key : Key) (variants : List StoredResponse) (held : Nat) :
    (h.replace key variants held).held = held := by
  unfold replace
  split <;> rfl

theorem nonempty_replace (nonempty : ∀ key, h.entries.lookup key ≠ some [])
    (variants : List StoredResponse) (held : Nat) (key' : Key) :
    (h.replace key variants held).entries.lookup key' ≠ some [] := by
  rw [entries_replace]
  exact Table.lookup_keepNonempty nonempty key variants key'

/-- Variants in place of those that were found, with the counter moved by the difference. -/
theorem Counted.replace (counted : h.Counted) {variants kept : List StoredResponse}
    (found : h.entries.lookup key = some variants) (apart : Apart kept) {held : Nat}
    (moved : held + variants.length = h.held + kept.length) :
    (h.replace key kept held).Counted where
  held := by
    have before : h.count = variants.length + Table.weight List.length (h.entries.erase key) :=
      Table.weight_erase found
    rw [held_replace, count_replace]
    rw [counted.held] at moved
    omega
  nonempty := nonempty_replace counted.nonempty kept held
  apart key' := by
    rw [get_replace]
    split
    · exact apart
    · exact counted.apart key'

theorem Counted.found_le (counted : h.Counted) {variants : List StoredResponse}
    (found : h.entries.lookup key = some variants) : variants.length ≤ h.held := by
  rw [counted.held]
  exact Table.le_weight List.length found

/-! ## Removing -/

theorem Counted.remove (counted : h.Counted) (key : Key) (selector : Selector) :
    (h.remove key selector).Counted := by
  unfold Held.remove
  cases found : h.entries.lookup key with
  | none => exact counted
  | some variants =>
      have room := counted.found_le found
      have fewer := List.length_filter_le (fun e : StoredResponse => e.selector ≠ selector) variants
      have apart := counted.apart key
      rw [get_of_lookup found] at apart
      exact counted.replace found (apart.sublist List.filter_sublist) (by omega)

/-- Nothing is removed, or the counter goes down. -/
theorem held_remove (counted : h.Counted) (key : Key) (selector : Selector) :
    (h.remove key selector).held ≤ h.held ∧
      ((h.remove key selector).held = h.held → ∀ e ∈ h.get key, e.selector ≠ selector) := by
  unfold Held.remove
  cases found : h.entries.lookup key with
  | none =>
      refine ⟨Nat.le_refl _, fun _ e member => ?_⟩
      rw [get, found] at member
      cases member
  | some variants =>
      have room := counted.found_le found
      have fewer := List.length_filter_le (fun e : StoredResponse => e.selector ≠ selector) variants
      rw [get_of_lookup found]
      dsimp only
      rw [held_replace]
      refine ⟨by omega, fun same e member => ?_⟩
      have all : (variants.filter fun e => e.selector ≠ selector).length = variants.length := by omega
      have kept := List.length_filter_eq_length_iff.mp all e member
      exact of_decide_eq_true kept

theorem Counted.invalidate (counted : h.Counted) (key : Key) : (h.invalidate key).Counted := by
  unfold Held.invalidate
  cases found : h.entries.lookup key with
  | none => exact counted
  | some variants =>
      have room := counted.found_le found
      have moved : h.held - variants.length + variants.length =
          h.held + ([] : List StoredResponse).length := by
        rw [List.length_nil]
        omega
      have whole := counted.replace found .nil moved
      rwa [Held.replace, if_pos rfl] at whole

theorem held_invalidate (h : Held) (key : Key) : (h.invalidate key).held ≤ h.held := by
  unfold Held.invalidate
  split
  · exact Nat.le_refl _
  · exact Nat.sub_le _ _

/-! ## Evicting -/

theorem foldl_earliest (rest : List (Key × Nat × StoredResponse)) (e : Key × Nat × StoredResponse) :
    let best := rest.foldl
      (fun best e => if e.2.2.receivedAt < best.2.2.receivedAt then e else best) e
    best ∈ e :: rest ∧ ∀ other ∈ e :: rest, best.2.2.receivedAt ≤ other.2.2.receivedAt := by
  induction rest generalizing e with
  | nil => simp [SystemTime.le_refl]
  | cons next rest ih =>
      rw [List.foldl_cons]
      obtain ⟨member, least⟩ := ih (if next.2.2.receivedAt < e.2.2.receivedAt then next else e)
      refine ⟨?_, fun other there => ?_⟩
      · split at member <;> grind
      by_cases earlier : next.2.2.receivedAt < e.2.2.receivedAt
      · rw [if_pos earlier] at least ⊢
        rcases List.mem_cons.mp there with rfl | there
        · have first := least next List.mem_cons_self
          exact SystemTime.le_trans first (Int.le_of_lt earlier)
        · exact least other there
      · rw [if_neg earlier] at least ⊢
        rcases List.mem_cons.mp there with rfl | there
        · exact least other List.mem_cons_self
        rcases List.mem_cons.mp there with rfl | there
        · exact SystemTime.le_trans (least e List.mem_cons_self) (SystemTime.not_lt.mp earlier)
        · exact least other (List.mem_cons_of_mem _ there)

theorem earliest_some {l : List (Key × Nat × StoredResponse)} {e : Key × Nat × StoredResponse}
    (found : earliest l = some e) : e ∈ l ∧ ∀ other ∈ l, e.2.2.receivedAt ≤ other.2.2.receivedAt := by
  cases l with
  | nil => cases found
  | cons first rest =>
      cases found
      exact foldl_earliest rest first

theorem mem_allEntries {key : Key} {i : Nat} {e : StoredResponse} :
    (key, i, e) ∈ h.allEntries ↔ (h.get key)[i]? = some e := by
  rw [allEntries, List.mem_flatMap]
  constructor
  · rintro ⟨⟨key', variants⟩, member, inside⟩
    obtain ⟨⟨e', i'⟩, placed, same⟩ := List.mem_map.mp inside
    cases same
    rw [get_of_lookup ((Table.mem_entries_iff _).mp member)]
    exact List.mk_mem_zipIdx_iff_getElem?.mp placed
  · intro placed
    cases found : h.entries.lookup key with
    | none =>
        rw [get, found] at placed
        cases placed
    | some variants =>
        rw [get_of_lookup found] at placed
        refine ⟨⟨key, variants⟩, (Table.mem_entries_iff _).mpr found, List.mem_map.mpr ?_⟩
        exact ⟨(e, i), List.mk_mem_zipIdx_iff_getElem?.mpr placed, rfl⟩

/-- The entry is as old as any that is held. -/
def Oldest (h : Held) (e : StoredResponse) : Prop :=
  ∀ key, ∀ other ∈ h.get key, e.receivedAt ≤ other.receivedAt

theorem earliest_oldest {key : Key} {i : Nat} {e : StoredResponse}
    (found : earliest h.allEntries = some (key, i, e)) :
    (h.get key)[i]? = some e ∧ h.Oldest e := by
  obtain ⟨member, least⟩ := earliest_some found
  refine ⟨mem_allEntries.mp member, fun key' other there => ?_⟩
  obtain ⟨i', placed⟩ := List.mem_iff_getElem?.mp there
  exact least (key', i', other) (mem_allEntries.mpr placed)

theorem allEntries_ne_nil (counted : h.Counted) (some_held : 0 < h.held) : h.allEntries ≠ [] := by
  intro empty
  have none_held : h.count = 0 := by
    refine List.sum_eq_zero fun n member => ?_
    obtain ⟨⟨key, variants⟩, entry, rfl⟩ := List.mem_map.mp member
    have inner := List.flatMap_eq_nil_iff.mp empty ⟨key, variants⟩ entry
    simpa using inner
  rw [counted.held] at some_held
  omega

/-! The variant at an index goes, and with it one of the count. -/

section
variable {key : Key} {i : Nat} {e : StoredResponse}

theorem lookup_of_getElem? (placed : (h.get key)[i]? = some e) :
    h.entries.lookup key = some (h.get key) := by
  cases found : h.entries.lookup key with
  | none =>
      rw [get, found] at placed
      cases placed
  | some variants => rw [get_of_lookup found]

theorem dropAt_eq (placed : (h.get key)[i]? = some e) :
    h.dropAt key i = h.replace key ((h.get key).eraseIdx i) (h.held - 1) := by
  rw [dropAt, lookup_of_getElem? placed]

theorem get_dropAt (placed : (h.get key)[i]? = some e) (key' : Key) : (h.dropAt key i).get key' =
    if key' = key then (h.get key).eraseIdx i else h.get key' := by
  rw [dropAt_eq placed, get_replace]

theorem held_dropAt (placed : (h.get key)[i]? = some e) : (h.dropAt key i).held = h.held - 1 := by
  rw [dropAt_eq placed, held_replace]

theorem Counted.dropAt (counted : h.Counted) (placed : (h.get key)[i]? = some e) :
    (h.dropAt key i).Counted := by
  have found := lookup_of_getElem? placed
  have room := counted.found_le found
  obtain ⟨inside, -⟩ := List.getElem?_eq_some_iff.mp placed
  have shorter := List.length_eraseIdx_of_lt inside
  rw [dropAt_eq placed]
  exact counted.replace found ((counted.apart key).sublist (List.eraseIdx_sublist _ _)) (by omega)

/-- Of what was held, only that entry is gone. -/
theorem gone_dropAt (placed : (h.get key)[i]? = some e) {key' : Key} {other : StoredResponse}
    (there : other ∈ h.get key') (gone : other ∉ (h.dropAt key i).get key') : other = e := by
  rw [get_dropAt placed] at gone
  split at gone
  next same =>
    subst same
    obtain ⟨j, at_j⟩ := List.mem_iff_getElem?.mp there
    by_cases differ : j = i
    · subst differ
      exact Option.some.inj (at_j.symm.trans placed)
    · exact absurd (List.mem_eraseIdx_iff_getElem?.mpr ⟨j, differ, at_j⟩) gone
  next => exact absurd there gone

end

theorem evictUntilRoom_of_lt (room : h.held < capacity) (fuel : Nat) :
    evictUntilRoom capacity fuel h = h := by
  cases fuel with
  | zero => rfl
  | succ fuel => rw [evictUntilRoom, if_neg (by omega)]

/-- A store that is full gives up one entry, which is the oldest. -/
theorem evictUntilRoom_full (counted : h.Counted) (some_held : 0 < h.held) :
    ∃ key i e, (h.get key)[i]? = some e ∧ h.Oldest e ∧
      evictUntilRoom h.held h.held h = h.dropAt key i := by
  obtain ⟨fuel, full⟩ : ∃ fuel, h.held = fuel + 1 := ⟨h.held - 1, by omega⟩
  cases found : earliest h.allEntries with
  | none =>
      cases all : h.allEntries with
      | nil => exact absurd all (allEntries_ne_nil counted some_held)
      | cons first rest =>
          rw [all] at found
          cases found
  | some oldest =>
      obtain ⟨key, i, e⟩ := oldest
      obtain ⟨placed, old⟩ := earliest_oldest found
      refine ⟨key, i, e, placed, old, ?_⟩
      have room : (h.dropAt key i).held < fuel + 1 := by
        rw [held_dropAt placed]
        omega
      rw [full, evictUntilRoom, if_pos (by omega), found]
      exact evictUntilRoom_of_lt room fuel

/-! ## Putting -/

/-- The table with one more variant at the end of a key's. -/
def push (h : Held) (key : Key) (entry : StoredResponse) : Held :=
  ⟨h.entries.insert key (h.get key ++ [entry]), h.held + 1⟩

theorem get_push (h : Held) (key key' : Key) (entry : StoredResponse) :
    (h.push key entry).get key' = if key' = key then h.get key ++ [entry] else h.get key' := by
  by_cases same : key' = key
  · subst same
    simp [push, get]
  · simp [push, get, same, AList.lookup_insert_ne]

theorem Counted.push (counted : h.Counted) {key : Key} {entry : StoredResponse}
    (fresh : ∀ e ∈ h.get key, e.selector ≠ entry.selector) : (h.push key entry).Counted where
  held := by
    have heavier : (h.push key entry).count =
        (h.get key ++ [entry]).length + Table.weight List.length (h.entries.erase key) :=
      Table.weight_insert _ _ _ _
    have before : h.count =
        (h.get key).length + Table.weight List.length (h.entries.erase key) := by
      cases found : h.entries.lookup key with
      | none =>
          rw [count, get, found, Table.erase_of_lookup_none found]
          exact (Nat.zero_add _).symm
      | some variants =>
          rw [get_of_lookup found]
          exact Table.weight_erase found
    have counter := counted.held
    rw [List.length_append, List.length_singleton] at heavier
    change h.held + 1 = _
    omega
  nonempty key' := by
    unfold Held.push
    by_cases same : key' = key
    · subst same
      simp
    · simpa [AList.lookup_insert_ne same] using counted.nonempty key'
  apart key' := by
    rw [get_push]
    split
    · refine List.pairwise_append.mpr ⟨counted.apart key, List.pairwise_singleton _ _, ?_⟩
      intro e member other last
      obtain rfl := List.mem_singleton.mp last
      exact fresh e member
    · exact counted.apart key'

/-- Counted, and no fuller than the store may be. -/
structure Bounded (capacity : Nat) (h : Held) : Prop where
  counted : h.Counted
  within : h.held ≤ capacity

theorem bounded_new : new.Bounded capacity := ⟨counted_new, Nat.zero_le _⟩

/-- The table a put adds its entry to: the variant it replaces is gone, and there is room. -/
def cleared (capacity : Nat) (h : Held) (key : Key) (selector : Selector) : Held :=
  evictUntilRoom capacity (h.remove key selector).held (h.remove key selector)

theorem put_eq (some_room : 0 < capacity) (h : Held) (key : Key) (entry : StoredResponse) :
    h.put capacity key entry = (h.cleared capacity key entry.selector).push key entry := by
  rw [put, if_neg (by omega)]
  rfl

theorem gone_remove {key key' : Key} {selector : Selector} {e : StoredResponse}
    (there : e ∈ h.get key') (gone : e ∉ (h.remove key selector).get key') :
    key' = key ∧ e.selector = selector := by
  rw [get_remove] at gone
  split at gone
  next same =>
    subst same
    refine ⟨rfl, ?_⟩
    by_contra differ
    exact gone (List.mem_filter.mpr ⟨there, by simpa using differ⟩)
  next => exact absurd there gone

/-- Nothing has to be evicted where a variant was replaced. A full store gives up its oldest. -/
theorem Bounded.cleared (bounded : h.Bounded capacity) (some_room : 0 < capacity) (key : Key)
    (selector : Selector) :
    h.cleared capacity key selector = h.remove key selector ∧
        (h.remove key selector).held < capacity ∨
      ∃ key' i e, ((h.remove key selector).get key')[i]? = some e ∧
        (h.remove key selector).held = h.held ∧ h.held = capacity ∧
        (h.remove key selector).Oldest e ∧
        h.cleared capacity key selector = (h.remove key selector).dropAt key' i := by
  obtain ⟨fewer, -⟩ := held_remove bounded.counted key selector
  have within := bounded.within
  by_cases room : (h.remove key selector).held < capacity
  · exact .inl ⟨evictUntilRoom_of_lt room _, room⟩
  · have same : (h.remove key selector).held = capacity := by omega
    obtain ⟨key', i, e, placed, old, dropped⟩ :=
      evictUntilRoom_full (bounded.counted.remove key selector) (by omega)
    refine .inr ⟨key', i, e, placed, by omega, by omega, old, ?_⟩
    rw [same] at dropped
    rw [Held.cleared, same, dropped]

/-- A put that removed nothing by itself leaves every key's variants as they were. -/
theorem get_remove_of_held (counted : h.Counted) {key : Key} {selector : Selector}
    (same : (h.remove key selector).held = h.held) (key' : Key) :
    (h.remove key selector).get key' = h.get key' := by
  have others := (held_remove counted key selector).2 same
  rw [get_remove]
  split
  next at_key =>
    subst at_key
    exact List.filter_eq_self.mpr fun e member => decide_eq_true (others e member)
  next => rfl

theorem cleared_fresh (bounded : h.Bounded capacity) (some_room : 0 < capacity) {key : Key}
    {selector : Selector} {e : StoredResponse}
    (member : e ∈ (h.cleared capacity key selector).get key) : e.selector ≠ selector := by
  have fresh : ∀ e ∈ (h.remove key selector).get key, e.selector ≠ selector := by
    intro e member
    rw [get_remove, if_pos rfl] at member
    exact of_decide_eq_true (List.mem_filter.mp member).2
  obtain ⟨same, -⟩ | ⟨key', i, oldest, placed, -, -, -, same⟩ :=
    bounded.cleared some_room key selector
  · rw [same] at member
    exact fresh e member
  · rw [same, get_dropAt placed] at member
    split at member
    · subst_vars
      exact fresh e (List.mem_of_mem_eraseIdx member)
    · exact fresh e member

theorem cleared_bounded (bounded : h.Bounded capacity) (some_room : 0 < capacity) (key : Key)
    (selector : Selector) : (h.cleared capacity key selector).Counted ∧
      (h.cleared capacity key selector).held < capacity := by
  have counted := bounded.counted.remove key selector
  obtain ⟨same, room⟩ | ⟨key', i, oldest, placed, unmoved, full, -, same⟩ :=
    bounded.cleared some_room key selector
  · rw [same]
    exact ⟨counted, room⟩
  · rw [same, held_dropAt placed]
    exact ⟨counted.dropAt placed, by omega⟩

theorem Bounded.put (bounded : h.Bounded capacity) (key : Key) (entry : StoredResponse) :
    (h.put capacity key entry).Bounded capacity := by
  rcases Nat.eq_zero_or_pos capacity with rfl | some_room
  · obtain ⟨fewer, -⟩ := held_remove bounded.counted key entry.selector
    rw [Held.put, if_pos rfl]
    exact ⟨bounded.counted.remove key entry.selector, Nat.le_trans fewer bounded.within⟩
  · obtain ⟨counted, room⟩ := cleared_bounded bounded some_room key entry.selector
    rw [put_eq some_room]
    exact ⟨counted.push fun e member => cleared_fresh bounded some_room member, room⟩

/-- What a put takes away: the variant it replaces, or an entry as old as any other, and that
only from a full store. -/
theorem gone_put (bounded : h.Bounded capacity) {key key' : Key} {entry e : StoredResponse}
    (there : e ∈ h.get key') (gone : e ∉ (h.put capacity key entry).get key') :
    key' = key ∧ e.selector = entry.selector ∨ h.held = capacity ∧ h.Oldest e := by
  rcases Nat.eq_zero_or_pos capacity with rfl | some_room
  · rw [Held.put, if_pos rfl] at gone
    exact .inl (gone_remove there gone)
  have cleared_gone : e ∉ (h.cleared capacity key entry.selector).get key' := by
    intro kept
    rw [put_eq some_room, get_push] at gone
    split at gone
    next same =>
      subst same
      exact gone (List.mem_append_left _ kept)
    next => exact gone kept
  obtain ⟨same, -⟩ | ⟨key'', i, oldest, placed, unmoved, full, old, same⟩ :=
    bounded.cleared some_room key entry.selector
  · rw [same] at cleared_gone
    exact .inl (gone_remove there cleared_gone)
  · have gets := get_remove_of_held bounded.counted unmoved
    rw [← gets] at there
    rw [same] at cleared_gone
    obtain rfl := gone_dropAt placed there cleared_gone
    refine .inr ⟨full, fun key other member => old key other ?_⟩
    rwa [gets]

/-! ## Every state -/

theorem Bounded.handle (bounded : h.Bounded capacity) (call : StoreCall) :
    (MemoryStore.handle capacity call h).2.Bounded capacity := by
  cases call with
  | get key => exact bounded
  | len => exact bounded
  | clear => exact bounded_new
  | put key entry => exact bounded.put key entry
  | remove key selector =>
      obtain ⟨fewer, -⟩ := held_remove bounded.counted key selector
      exact ⟨bounded.counted.remove key selector, Nat.le_trans fewer bounded.within⟩
  | invalidate key =>
      exact ⟨bounded.counted.invalidate key, Nat.le_trans (held_invalidate h key) bounded.within⟩

/-- The table after a sequence of calls. -/
def after (capacity : Nat) (h : Held) (calls : List StoreCall) : Held :=
  calls.foldl (fun h call => (MemoryStore.handle capacity call h).2) h

theorem Bounded.after (bounded : h.Bounded capacity) (calls : List StoreCall) :
    (h.after capacity calls).Bounded capacity := by
  induction calls generalizing h with
  | nil => exact bounded
  | cons call calls ih => exact ih (bounded.handle call)

/-- In every state of the store the counter is the number of variants and within the capacity,
no key is kept without a variant, selectors tell the variants of a key apart, and besides the
variant it replaces a put removes only entries that are as old as any, from a full store. -/
theorem counted_and_bounded (capacity : Nat) (calls : List StoreCall) :
    let h := new.after capacity calls
    h.held = h.count ∧ h.held ≤ capacity ∧ (∀ key, h.entries.lookup key ≠ some []) ∧
      (∀ key, Apart (h.get key)) ∧
      ∀ key entry key', ∀ e ∈ h.get key', e ∉ (h.put capacity key entry).get key' →
        key' = key ∧ e.selector = entry.selector ∨ h.held = capacity ∧ h.Oldest e := by
  have bounded : (new.after capacity calls).Bounded capacity := bounded_new.after calls
  refine ⟨bounded.counted.held, bounded.within, bounded.counted.nonempty, bounded.counted.apart, ?_⟩
  intro key entry key' e there gone
  exact gone_put bounded there gone

/-- A variant that was received this many seconds after the epoch. -/
def variant (selector : Selector) (receivedAt : Nat) (body : List UInt8) : StoredResponse where
  status := 200
  version := .http11
  headers := []
  body := body
  selector := selector
  requestedAt := .unixEpoch
  receivedAt := .fromUnix receivedAt
  request := []
  arrived := []

/-- A full store replaces the newer of its two variants, and the older stays. -/
theorem replaced_variant_is_not_the_oldest :
    let key : Key := ⟨.get, "http://a/".toList⟩
    let plain : Selector := ⟨[]⟩
    let json : Selector := ⟨[("accept".toList, some [42])]⟩
    let h := new.after 2 [.put key (variant plain 0 [1]), .put key (variant json 1 [1])]
    let put := h.put 2 key (variant json 2 [2])
    h.held = 2 ∧ variant json 1 [1] ∈ h.get key ∧ variant json 1 [1] ∉ put.get key ∧
      variant plain 0 [1] ∈ put.get key ∧ ¬ h.Oldest (variant json 1 [1]) := by
  refine ⟨by decide, by decide, by decide, by decide, fun oldest => ?_⟩
  have least := oldest ⟨.get, "http://a/".toList⟩ (variant ⟨[]⟩ 0 [1]) (by decide)
  revert least
  decide

end Held
end HClient.Cache
