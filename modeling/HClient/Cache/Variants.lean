import HClient.Cache.Runs

/-!
# Which variant a lookup finds

Several variants under one key may match one request, since each was selected by the fields
its own `Vary` nominated. When the latest of them is taken away, an older one that matches is
found in its place.
-/
namespace HClient.Cache

open Effect Machine HttpCache

/-- Some request could have been answered with either. -/
def Selector.Compatible (a b : Selector) : Prop :=
  ∀ f ∈ a.fields, ∀ g ∈ b.fields, f.1 = g.1 → f.2 = g.2

instance (a b : Selector) : Decidable (a.Compatible b) :=
  inferInstanceAs (Decidable (∀ f ∈ a.fields, ∀ g ∈ b.fields, f.1 = g.1 → f.2 = g.2))

/-- What has been stored and is later than a held variant that matches the same requests has a
successor of its own selector that is held. -/
def Covered (stored : Key × StoredResponse → Prop) (h : Held) : Prop :=
  ∀ key, ∀ older ∈ h.get key, ∀ newer, stored (key, newer) →
    older.receivedAt < newer.receivedAt → older.selector.Compatible newer.selector →
      ∃ kept ∈ h.get key, kept.selector = newer.selector ∧ newer.receivedAt ≤ kept.receivedAt

/-- What arrives now arrives later than everything before, and the store has room. -/
def Timely (capacity : Nat) (s : InUse) (op : CacheOp) : Prop :=
  s.held.held < capacity ∧
    match op with
    | .storing _ _ _ _ _ receivedAt | .revalidated _ _ _ _ receivedAt =>
        (∀ storing ∈ s.pending, storing.receivedAt < receivedAt) ∧
          ∀ b ∈ s.stored, b.2.receivedAt < receivedAt
    | _ => True

/-- A variant that is given up leaves no older one that matches what it matched, and a response
is not stored after a later one that matches the same requests, unless that has a successor
of another selector. -/
def Orderly (s : InUse) : CacheOp → Prop
  | .store storing _ =>
      ∀ b ∈ s.stored, b.1 = storing.key → storing.receivedAt < b.2.receivedAt →
        b.2.selector ≠ storing.selector ∧ (storing.selector.Compatible b.2.selector →
          ∃ kept ∈ s.held.get storing.key, kept.selector = b.2.selector ∧
            b.2.receivedAt ≤ kept.receivedAt)
  | .superseded key stale =>
      ∀ older ∈ s.held.get key, older.selector ≠ stale.selector →
        older.selector.Compatible stale.selector →
          ∀ b ∈ s.stored, b.1 = key → b.2.selector = stale.selector →
            b.2.receivedAt ≤ older.receivedAt
  | _ => True

instance (capacity : Nat) (s : InUse) : (op : CacheOp) → Decidable (Timely capacity s op)
  | .storing .. | .revalidated .. => inferInstanceAs (Decidable (_ ∧ _ ∧ _))
  | .store .. | .lookup .. | .superseded .. | .invalidatedBy .. =>
      inferInstanceAs (Decidable (_ ∧ True))

instance (s : InUse) : (op : CacheOp) → Decidable (Orderly s op)
  | .store storing _ => inferInstanceAs (Decidable (∀ b ∈ s.stored, b.1 = storing.key →
      storing.receivedAt < b.2.receivedAt → b.2.selector ≠ storing.selector ∧
        (storing.selector.Compatible b.2.selector → ∃ kept ∈ s.held.get storing.key,
          kept.selector = b.2.selector ∧ b.2.receivedAt ≤ kept.receivedAt)))
  | .superseded key stale => inferInstanceAs (Decidable (∀ older ∈ s.held.get key,
      older.selector ≠ stale.selector → older.selector.Compatible stale.selector →
        ∀ b ∈ s.stored, b.1 = key → b.2.selector = stale.selector →
          b.2.receivedAt ≤ older.receivedAt))
  | .storing .. | .lookup .. | .revalidated .. | .invalidatedBy .. => .isTrue trivial

/-- No hit is older than something that was stored for its key and matches the request. -/
def InUse.Newest (capacity : Nat) (s : InUse) : CacheOp → Prop
  | .lookup method uri headers now =>
      ∀ served ∈ (s.answer capacity method uri headers now).served, ∀ b ∈ s.stored,
        Key.new method uri = some b.1 → selectorMatches b.2 headers = true →
          b.2.receivedAt ≤ served.receivedAt
  | _ => True

instance (capacity : Nat) (s : InUse) : (op : CacheOp) → Decidable (s.Newest capacity op)
  | .lookup method uri headers now => inferInstanceAs (Decidable
      (∀ served ∈ (s.answer capacity method uri headers now).served, ∀ b ∈ s.stored,
        Key.new method uri = some b.1 → selectorMatches b.2 headers = true →
          b.2.receivedAt ≤ served.receivedAt))
  | .storing .. | .store .. | .revalidated .. | .superseded .. | .invalidatedBy .. =>
      .isTrue trivial

/-- Two selectors that match one request are compatible. -/
theorem compatible_of_matches {a b : StoredResponse} {headers : HeaderMap HeaderValue}
    (matches_a : selectorMatches a headers = true) (matches_b : selectorMatches b headers = true) :
    a.selector.Compatible b.selector := by
  have built_a : Selector.of headers a.selector.names = a.selector := of_decide_eq_true matches_a
  have built_b : Selector.of headers b.selector.names = b.selector := of_decide_eq_true matches_b
  intro f mem_f g mem_g same
  rw [← built_a] at mem_f
  rw [← built_b] at mem_g
  rw [(Selector.mem_of.mp mem_f).2, (Selector.mem_of.mp mem_g).2, same]

theorem selectorMatches_congr {a b : StoredResponse} (same : a.selector = b.selector)
    (headers : HeaderMap HeaderValue) : selectorMatches a headers = selectorMatches b headers := by
  rw [selectorMatches, selectorMatches, same]

/-- Nothing the latest is chosen from is later. -/
theorem latest_max {variants : List StoredResponse} {e : StoredResponse}
    (found : latest variants = some e) : ∀ x ∈ variants, x.receivedAt ≤ e.receivedAt := by
  cases variants with
  | nil => cases found
  | cons first rest =>
      cases found
      have upper : ∀ (l : List StoredResponse) (best : StoredResponse), ∀ x ∈ best :: l,
          x.receivedAt ≤ (l.foldl (fun best e =>
            if e.receivedAt < best.receivedAt then best else e) best).receivedAt := by
        intro l
        induction l with
        | nil =>
            intro best x member
            rw [List.mem_singleton.mp member]
            exact SystemTime.le_refl _
        | cons e l ih =>
            intro best x member
            rw [List.foldl_cons]
            have tail := ih (if e.receivedAt < best.receivedAt then best else e)
            have head := tail _ List.mem_cons_self
            have step : best.receivedAt ≤
                  (if e.receivedAt < best.receivedAt then best else e).receivedAt ∧
                e.receivedAt ≤ (if e.receivedAt < best.receivedAt then best else e).receivedAt := by
              split
              next before => exact ⟨SystemTime.le_refl _, Int.le_of_lt before⟩
              next after => exact ⟨SystemTime.not_lt.mp after, SystemTime.le_refl _⟩
            obtain rfl | member := List.mem_cons.mp member
            · exact SystemTime.le_trans step.1 head
            obtain rfl | member := List.mem_cons.mp member
            · exact SystemTime.le_trans step.2 head
            · exact tail x (List.mem_cons_of_mem _ member)
      exact upper rest first

namespace Held
variable {h : Held} {capacity : Nat}

theorem remove_held (key : Key) (selector : Selector) : (h.remove key selector).held ≤ h.held := by
  unfold remove
  split
  · exact Nat.le_refl _
  · simp only [replace]
    split <;> exact Nat.sub_le _ _

theorem evictUntilRoom_room (room : h.held < capacity) (fuel : Nat) :
    evictUntilRoom capacity fuel h = h := by
  cases fuel with
  | zero => rfl
  | succ fuel =>
      rw [evictUntilRoom, if_neg]
      omega

/-- Where there is room, nothing but the variant of the same selector makes way. -/
theorem get_put (room : h.held < capacity) (key key' : Key) (entry : StoredResponse) :
    (h.put capacity key entry).get key' =
      if key' = key then (h.get key).filter (fun e => e.selector ≠ entry.selector) ++ [entry]
      else h.get key' := by
  have still : (h.remove key entry.selector).held < capacity :=
    Nat.lt_of_le_of_lt (remove_held key entry.selector) room
  unfold put
  simp only
  rw [if_neg (by omega), evictUntilRoom_room still]
  by_cases same : key' = key
  · subst same
    rw [if_pos rfl, get, AList.lookup_insert, Option.getD_some, get_remove, if_pos rfl]
  · rw [if_neg same, get, AList.lookup_insert_ne same, ← get, get_remove, if_neg same]

end Held

section
variable {stored : Key × StoredResponse → Prop} {h : Held} {capacity : Nat}

theorem Covered.invalidate (covered : Covered stored h) (key : Key) :
    Covered stored (h.invalidate key) := by
  intro key' older member newer was later compatible
  rw [Held.get_invalidate] at member ⊢
  split at member
  · cases member
  next differ =>
    rw [if_neg differ]
    exact covered key' older member newer was later compatible

/-- A variant may be given up where no older one that remains matches what it matched. -/
theorem Covered.remove (covered : Covered stored h) {key : Key} {selector : Selector}
    (last : ∀ older ∈ h.get key, older.selector ≠ selector → older.selector.Compatible selector →
      ∀ newer, stored (key, newer) → newer.selector = selector →
        newer.receivedAt ≤ older.receivedAt) : Covered stored (h.remove key selector) := by
  intro key' older member newer was later compatible
  rw [Held.get_remove] at member ⊢
  split at member
  next same =>
    subst same
    obtain ⟨member, other⟩ := List.mem_filter.mp member
    have differs : newer.selector ≠ selector := by
      intro same
      refine absurd later (SystemTime.not_lt.mpr ?_)
      exact last older member (of_decide_eq_true other) (same ▸ compatible) newer was same
    obtain ⟨kept, held, same, upTo⟩ := covered key' older member newer was later compatible
    rw [if_pos rfl]
    exact ⟨kept, List.mem_filter.mpr ⟨held, decide_eq_true (same ▸ differs)⟩, same, upTo⟩
  next differ =>
    rw [if_neg differ]
    exact covered key' older member newer was later compatible

/-- An entry may be put where what was stored later and matches the same requests has a
successor of another selector. -/
theorem Covered.put (covered : Covered stored h) (room : h.held < capacity) {key : Key}
    {entry : StoredResponse}
    (orderly : ∀ newer, stored (key, newer) → entry.receivedAt < newer.receivedAt →
      newer.selector ≠ entry.selector ∧ (entry.selector.Compatible newer.selector →
        ∃ kept ∈ h.get key, kept.selector = newer.selector ∧
          newer.receivedAt ≤ kept.receivedAt)) :
    Covered (fun b => b = (key, entry) ∨ stored b) (h.put capacity key entry) := by
  intro key' older member newer was later compatible
  rw [Held.get_put room] at member ⊢
  by_cases same : key' = key
  · subst same
    rw [if_pos rfl] at member ⊢
    obtain remains | put := List.mem_append.mp member
    · obtain new | was := was
      · cases new
        exact ⟨entry, List.mem_append_right _ (List.mem_singleton_self _), rfl,
          SystemTime.le_refl _⟩
      · obtain ⟨kept, held, same, upTo⟩ :=
          covered key' older (List.mem_filter.mp remains).1 newer was later compatible
        by_cases replaced : kept.selector = entry.selector
        · refine ⟨entry, List.mem_append_right _ (List.mem_singleton_self _),
            replaced.symm.trans same, ?_⟩
          by_contra before
          exact (orderly newer was (SystemTime.not_le.mp before)).1 (same.symm.trans replaced)
        · exact ⟨kept, List.mem_append_left _
            (List.mem_filter.mpr ⟨held, decide_eq_true replaced⟩), same, upTo⟩
    · cases List.mem_singleton.mp put
      obtain new | was := was
      · cases new
        exact absurd later (Int.lt_irrefl _)
      · obtain ⟨other, successor⟩ := orderly newer was later
        obtain ⟨kept, held, same, upTo⟩ := successor compatible
        exact ⟨kept, List.mem_append_left _
          (List.mem_filter.mpr ⟨held, decide_eq_true (same ▸ other)⟩), same, upTo⟩
  · rw [if_neg same] at member ⊢
    obtain new | was := was
    · exact absurd (congrArg Prod.fst new) same
    · exact covered key' older member newer was later compatible

theorem Covered.mono {stored' : Key × StoredResponse → Prop} (covered : Covered stored h)
    (fewer : ∀ b, stored' b → stored b) : Covered stored' h :=
  fun key older member newer was => covered key older member newer (fewer _ was)

theorem Covered.invalidateKey (covered : Covered stored h) (key : Option Key) :
    Covered stored ((invalidateKey key).runWith (MemoryStore.handle capacity) h).2 := by
  cases key with
  | none => exact covered
  | some key => exact covered.invalidate key

theorem Covered.invalidatedBy (covered : Covered stored h) (method : Method) (uri : Uri)
    (status : StatusCode) :
    Covered stored ((invalidatedBy method uri status).runWith (MemoryStore.handle capacity) h).2 := by
  unfold HttpCache.invalidatedBy
  split
  · exact covered
  · rw [Program.runWith_bind]
    exact (covered.invalidateKey _).invalidateKey _

end

/-- A store either refuses the body or puts the entry. -/
theorem store_result {capacity : Nat} {storing : Storing} {body : List UInt8} {h : Held} :
    (∃ refused, onHeld capacity (store storing body) h = (.error refused, h)) ∨
      onHeld capacity (store storing body) h =
        (.ok (), h.put capacity storing.key (storing.entry body)) := by
  unfold store
  split
  · exact .inl ⟨_, rfl⟩
  split
  · exact .inl ⟨_, rfl⟩
  · exact .inr rfl

section
variable {cache : HttpCache} {capacity : Nat}

theorem use_covered {s s' : InUse} {op : CacheOp}
    (allowed : Timely capacity s op ∧ Orderly s op) (covered : Covered (· ∈ s.stored) s.held)
    (stepped : use cache capacity s op = some s') : Covered (· ∈ s'.stored) s'.held := by
  obtain ⟨⟨room, timely⟩, orderly⟩ := allowed
  cases op with
  | storing method uri headers parts requestedAt receivedAt =>
      simp only [use] at stepped
      split at stepped <;> cases stepped <;> exact covered
  | store storing body =>
      obtain ⟨-, result⟩ := Option.ite_none_right_eq_some.mp stepped
      obtain ⟨refused, same⟩ | put := store_result
      · rw [same] at result
        cases result
        exact covered
      · rw [put] at result
        cases result
        refine (covered.put room fun newer was => orderly _ was rfl).mono fun b member => ?_
        exact List.mem_cons.mp member
  | lookup method uri headers now =>
      cases stepped
      simp only [onHeld, lookup_held]
      exact covered
  | revalidated key stale parts requestedAt receivedAt =>
      obtain ⟨-, same⟩ := Option.ite_none_right_eq_some.mp stepped
      cases same
      refine (covered.put room fun newer was later => ?_).mono fun b member =>
        List.mem_cons.mp member
      exact absurd (timely.2 _ was) (SystemTime.not_lt.mpr (Int.le_of_lt later))
  | superseded key stale =>
      obtain ⟨-, same⟩ := Option.ite_none_right_eq_some.mp stepped
      cases same
      exact covered.remove fun older held other compatible newer was same =>
        orderly older held other compatible _ was rfl same
  | invalidatedBy method uri status =>
      cases stepped
      exact covered.invalidatedBy method uri status

/-- A hit is the latest of the held variants that match, and what was stored later would be
covered by one of them. -/
theorem newest_of_covered {s : InUse} {op : CacheOp} (covered : Covered (· ∈ s.stored) s.held) :
    s.Newest capacity op := by
  cases op with
  | lookup method uri headers now =>
      intro served hit b was keyed matched
      obtain ⟨-, key, e, keyed', chosen, -, rfl⟩ :=
        (lookup_eq_hit capacity).mp (Lookup.served_eq_some.mp hit)
      cases keyed.symm.trans keyed'
      obtain ⟨held, found⟩ := selected_mem chosen
      by_contra later
      obtain ⟨kept, member, same, upTo⟩ := covered b.1 e held b.2 was (SystemTime.not_le.mp later)
        (compatible_of_matches found matched)
      have matches_kept : selectorMatches kept headers = true := by
        rw [selectorMatches_congr same]
        exact matched
      have bound : kept.receivedAt ≤ e.receivedAt :=
        latest_max chosen kept (List.mem_filter.mpr ⟨member, matches_kept⟩)
      exact later (SystemTime.le_trans upTo bound)
  | _ => trivial

/-- Where responses arrive one after another, the store has room, and no variant makes way for
an older one, no lookup falls back to an older variant. -/
theorem orderly_run_newest {ops : List CacheOp}
    (timely : (use cache capacity).Always (Timely capacity) InUse.new ops)
    (orderly : (use cache capacity).Always Orderly InUse.new ops) :
    (use cache capacity).Always (fun s op => s.Newest capacity op) InUse.new ops := by
  refine Always.of_invariant (fun s => Covered (· ∈ s.stored) s.held)
    (fun _ _ _ => use_covered) (fun _ _ _ => newest_of_covered) (timely.and orderly) ?_
  intro key older member
  cases member

end

namespace Scene

def bothFields : HeaderMap HeaderValue :=
  [("x".toList, .ofAscii "1"), ("y".toList, .ofAscii "1")]

def varying (name control : String) : HeaderMap HeaderValue :=
  [("vary".toList, .ofAscii name), (cacheControl, .ofAscii control),
    ("etag".toList, .ofAscii "\"1\"")]

/-- One resource whose responses come to nominate another field. -/
def renominated (control : String) : List CacheOp :=
  kept bothFields (varying "X" "max-age=1000") 0 ++ kept bothFields (varying "Y" control) 1

def givenUp : List CacheOp :=
  match judged bothFields (varying "Y" "max-age=0") 1 with
  | .error _ => []
  | .ok storing => [.lookup .get aUri bothFields (instant 2),
      .superseded storing.key (storing.entry [1])]

def asked : CacheOp := .lookup .get aUri bothFields (instant 3)

end Scene

open Scene in
theorem orderly_run_newest_renominated :
    (use Scene.cache 10).Always (fun s op => s.Newest 10 op) InUse.new
      (renominated "max-age=1000" ++ [asked]) :=
  orderly_run_newest (by decide +kernel) (by decide +kernel)

open Scene in
/-- The later response is given up at its revalidation, and the earlier one is served again. -/
theorem older_variant_comes_back :
    (use Scene.cache 10).Always (Timely 10) InUse.new
        (renominated "max-age=0" ++ givenUp ++ [asked]) ∧
      ¬ (use Scene.cache 10).Always (fun s op => s.Newest 10 op) InUse.new
        (renominated "max-age=0" ++ givenUp ++ [asked]) := by
  decide +kernel

end HClient.Cache
