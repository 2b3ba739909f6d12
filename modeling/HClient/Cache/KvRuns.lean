import HClient.Cache.KvStore
import HClient.Effect.Machine

/-!
# The counter of the cache over the byte seam

One spec for each operation, run from a state in which each value of the namespace is an encoded
entry under its own key, and from them what the counter is worth: it covers what is held, and the
capacity is kept, exactly as long as no removal of an absent variant finds it level with what is
held and no put finds it at its last number.
-/
namespace HClient.Cache.KvStore

open Effect Kv Shared
open Hsts (toLeBytes)

/-- One operation of the store. -/
inductive Op where
  | put (key : Key) (entry : StoredResponse)
  | remove (key : Key) (selector : Selector)
  | invalidate (key : Key)
  | clear

def Op.body (capacity : Nat) : Op → Calls Unit
  | .put key entry => KvStore.put capacity key entry
  | .remove key selector => KvStore.remove key selector
  | .invalidate key => KvStore.invalidate key
  | .clear => KvStore.clear

/-- What an operation that nothing comes in between leaves. -/
def apply (capacity : Nat) (s : Shared) (op : Op) : Shared :=
  ((op.body capacity).runWith (Call.handle ns) s).2

/-- The store, one operation after another. -/
def sequential (capacity : Nat) : Machine Shared Op := fun s op => some (apply capacity s op)

abbrev values (s : Shared) : List (Text × Bytes) := s.values ns

def keys (s : Shared) : List Text := (values s).map Prod.fst

/-- How many entries the namespace holds. -/
def count (s : Shared) : Nat := (values s).length

/-- Each value of the namespace is an entry under its own key, and the only one there. -/
structure Kept (s : Shared) : Prop where
  tidy : s.Tidy ns
  own : ∀ e ∈ values s, ∃ key entry, encode entry = some e.2 ∧
    keyFor key entry.selector = e.1

theorem kept_new : Kept Shared.new := ⟨Shared.tidy_new, by simp [values]⟩

variable {s : Shared} {capacity : Nat}

theorem Kept.nodup (kept : Kept s) : (keys s).Nodup := kept.tidy.nodup

theorem secs_lt (t : SystemTime) : secs t < 2 ^ 63 := Hsts.expirySecs_lt t

/-- A number of eight bytes behind eleven others. -/
theorem receivedAtOf_behind {front : Bytes} (width : front.length = 2 + 1 + 8) {n : Nat}
    (small : n < 256 ^ 8) (rest : Bytes) :
    receivedAtOf (front ++ (toLeBytes 8 n ++ rest)) = some n := by
  have head := Reader.Reads.take front
  rw [width] at head
  have both := head.bind (f := fun _ => Reader.number 8) (Reader.Reads.number small)
  have run := both rest
  rw [List.append_assoc] at run
  unfold receivedAtOf receivedAtReader
  rw [run]
  rfl

/-- The time an entry was received at is read without the rest of it. -/
theorem receivedAtOf_encode {entry : StoredResponse} {bytes : Bytes}
    (encoded : encode entry = some bytes) : receivedAtOf bytes = some (secs entry.receivedAt) := by
  unfold encode at encoded
  simp only [Option.bind_eq_bind, Option.bind_eq_some_iff, Option.pure_def, Option.some.injEq]
    at encoded
  obtain ⟨headers, -, fields, -, body, -, rfl⟩ := encoded
  have width : (toLeBytes 2 entry.status ++ (toLeBytes 1 (versionTag entry.version) ++
      toLeBytes 8 (secs entry.requestedAt))).length = 2 + 1 + 8 := by
    simp [Hsts.length_toLeBytes]
  have small : secs entry.receivedAt < 256 ^ 8 := Nat.lt_trans (secs_lt _) (by decide)
  have read := receivedAtOf_behind width small (headers ++ (fields ++ body))
  simpa only [List.append_assoc] using read

/-- Every value found can be a victim, by its key. -/
theorem Kept.victims (kept : Kept s) :
    ((values s).filterMap victimOf).map Prod.snd = keys s := by
  have all : ∀ l : List (Text × Bytes), l ⊆ values s →
      (l.filterMap victimOf).map Prod.snd = l.map Prod.fst := by
    intro l
    induction l with
    | nil => exact fun _ => rfl
    | cons e l ih =>
        intro of
        obtain ⟨key, entry, encoded, -⟩ := kept.own e (of List.mem_cons_self)
        have rest := ih fun e' member => of (List.mem_cons_of_mem _ member)
        rw [List.filterMap_cons_some (b := (secs entry.receivedAt, e.1))
          (by simp [victimOf, receivedAtOf_encode encoded]), List.map_cons, rest]
        rfl
  exact all _ fun _ member => member

/-- The keys that a put evicts. -/
def evicted (capacity : Nat) (s : Shared) : List Text :=
  if capacity < wrappingSucc s.held then victims capacity (values s) else []

theorem Kept.evicted_subset (kept : Kept s) : evicted capacity s ⊆ keys s := by
  unfold evicted
  split
  · rw [← kept.victims]
    exact choose_subset
  · exact List.nil_subset _

theorem Kept.evicted_nodup (kept : Kept s) : (evicted capacity s).Nodup := by
  unfold evicted
  split
  · refine choose_nodup ?_
    rw [kept.victims]
    exact kept.nodup
  · exact .nil

theorem Kept.evicted_length (kept : Kept s) : (evicted capacity s).length =
    if capacity < wrappingSucc s.held then count s - (capacity - 1) else 0 := by
  unfold evicted
  split
  · have all := congrArg List.length kept.victims
    rw [List.length_map, keys, List.length_map] at all
    unfold KvStore.victims count
    rw [choose_length, all]
    omega
  · rfl

theorem scan_all (s : Shared) : (Call.handle ns (.scan []) s).1 = values s := by
  have answer : (Call.handle ns (.scan []) s).1 =
      (values s).filter fun e => List.isPrefixOf [] e.1 := MemoryStore.scanWhere_eq _ _ _ _
  rw [answer]
  simp

/-- A put is an addition to the counter and an eviction with the write behind it. -/
theorem put_eq {key : Key} {entry : StoredResponse} {value : Bytes}
    (encoded : encode entry = some value) (room : capacity ≠ 0) (s : Shared) :
    (put capacity key entry).runWith (Call.handle ns) s =
      (evict (decide (capacity < wrappingSucc s.held)) (evicted capacity s)
        [.remove (keyFor key entry.selector), .put (keyFor key entry.selector) value]).runWith
        (Call.handle ns) { s with held := wrappingSucc s.held } := by
  have same : values { s with held := wrappingSucc s.held } = values s := rfl
  unfold put evicted
  rw [encoded]
  simp only [room, if_false, Program.bind_eq, Program.perform_bind, Program.runWith_call]
  by_cases above : capacity < wrappingSucc s.held
  · have answer := scan_all { s with held := wrappingSucc s.held }
    simp only [Call.handle] at answer ⊢
    simp only [above, if_true, Program.runWith_call, decide_true, Call.handle, answer, same]
  · simp only [Call.handle]
    simp only [above, if_false, decide_false]
    rfl

section Put
variable {key : Key} {entry : StoredResponse} {value : Bytes}

theorem put_shows (kept : Kept s) (encoded : encode entry = some value) (room : capacity ≠ 0) :
    Shows ns (apply capacity s (.put key entry))
      ((keyFor key entry.selector, value) :: (values s).filter fun e =>
        e.1 ∉ evicted capacity s ∧ e.1 ≠ keyFor key entry.selector) := by
  have tidy : Tidy ns { s with held := wrappingSucc s.held } := kept.tidy
  unfold apply Op.body
  rw [put_eq encoded room]
  exact shows_evict tidy _ _ _ value

theorem put_unstored (none_stored : encode entry = none ∨ capacity = 0) :
    apply capacity s (.put key entry) = s := by
  unfold apply Op.body put
  rcases none_stored with unencoded | noRoom
  · simp [unencoded]
  · cases encoded : encode entry <;> simp [encoded, noRoom]

/-- How many are left once an entry was put. -/
theorem count_put (kept : Kept s) (encoded : encode entry = some value) (room : capacity ≠ 0) :
    count (apply capacity s (.put key entry)) + (evicted capacity s).length +
      (if keyFor key entry.selector ∈ keys s ∧ keyFor key entry.selector ∉ evicted capacity s
        then 1 else 0) = count s + 1 := by
  have after : values (apply capacity s (.put key entry)) = _ :=
    (put_shows kept encoded room).values
  unfold count
  rw [after]
  exact length_evicted kept.nodup kept.evicted_nodup kept.evicted_subset _ value

/-- What a put takes from the counter for those it evicts. -/
def charged (capacity : Nat) (s : Shared) : Nat :=
  if decide (capacity < wrappingSucc s.held) then (evicted capacity s).length else 0

theorem put_along (encoded : encode entry = some value) (room : capacity ≠ 0)
    (enough : charged capacity s ≤ wrappingSucc s.held) :
    (put capacity key entry).Along (Call.handle ns) NotBelowZero s := by
  have same : values { s with held := wrappingSucc s.held } = values s := rfl
  unfold put
  rw [encoded]
  simp only [room, if_false, Program.bind_eq, Program.perform_bind, Program.along_call]
  refine ⟨trivial, ?_⟩
  by_cases above : capacity < wrappingSucc s.held
  · have answer := scan_all { s with held := wrappingSucc s.held }
    simp only [Call.handle] at answer ⊢
    simp only [above, if_true, Program.along_call, Call.handle, answer, same]
    refine ⟨trivial, evict_along _ ?_⟩
    simpa [charged, evicted, above] using enough
  · simp only [Call.handle]
    simp only [above, if_false]
    exact runSteps_along _ _

theorem put_held (encoded : encode entry = some value) (room : capacity ≠ 0)
    (enough : charged capacity s ≤ wrappingSucc s.held) :
    (apply capacity s (.put key entry)).held = wrappingSucc s.held - charged capacity s := by
  unfold apply Op.body
  rw [put_eq encoded room]
  exact evict_held (s := { s with held := wrappingSucc s.held }) _ enough

end Put

theorem remove_shows (kept : Kept s) (key : Key) (selector : Selector) :
    Shows ns (apply capacity s (.remove key selector))
      ((values s).filter fun e => e.1 ≠ keyFor key selector) := by
  have tidy : Tidy ns (Call.handle ns .fetchSub s).2 := kept.tidy
  exact shows_remove tidy _

theorem count_remove (kept : Kept s) (key : Key) (selector : Selector) :
    count (apply capacity s (.remove key selector)) +
      (if keyFor key selector ∈ keys s then 1 else 0) = count s := by
  have after : values (apply capacity s (.remove key selector)) = _ :=
    (remove_shows kept key selector).values
  unfold count
  rw [after]
  exact length_filter_ne kept.nodup _

theorem invalidate_shows (kept : Kept s) (key : Key) :
    Shows ns (apply capacity s (.invalidate key))
      ((values s).filter fun e => !(prefixFor key).isPrefixOf e.1) :=
  shows_removePrefix kept.tidy _

theorem clear_shows : Shows ns (apply capacity s .clear) [] := Shared.shows_clear ns _

theorem kept_of_shows {s' : Shared} {l : List (Text × Bytes)} (shows_ : Shows ns s' l)
    (own : ∀ e ∈ l, ∃ key entry, encode entry = some e.2 ∧ keyFor key entry.selector = e.1) :
    Kept s' :=
  ⟨shows_.tidy, fun e member => own e (shows_.values ▸ member)⟩

theorem Kept.apply (kept : Kept s) (op : Op) : Kept (KvStore.apply capacity s op) := by
  cases op with
  | put key entry =>
      by_cases stored : encode entry = none ∨ capacity = 0
      · rw [put_unstored stored]
        exact kept
      · simp only [not_or, ← Ne.eq_def, Option.ne_none_iff_exists'] at stored
        obtain ⟨⟨value, encoded⟩, room⟩ := stored
        refine kept_of_shows (put_shows kept encoded room) fun e member => ?_
        rcases List.mem_cons.mp member with rfl | rest
        · exact ⟨key, entry, encoded, rfl⟩
        · exact kept.own e (List.mem_of_mem_filter rest)
  | remove key selector =>
      exact kept_of_shows (remove_shows kept key selector) fun e member =>
        kept.own e (List.mem_of_mem_filter member)
  | invalidate key =>
      exact kept_of_shows (invalidate_shows kept key) fun e member =>
        kept.own e (List.mem_of_mem_filter member)
  | clear => exact kept_of_shows clear_shows nofun

/-! ## The counter -/

/-- The operation takes nothing from a counter at zero, leaves it at no less than what the
namespace holds, and a put leaves no more than the capacity. -/
def Counts (capacity : Nat) (s : Shared) (op : Op) : Prop :=
  (op.body capacity).Along (Call.handle ns) NotBelowZero s ∧
    count (apply capacity s op) ≤ (apply capacity s op).held ∧
      match op with
      | .put _ _ => count (apply capacity s op) ≤ capacity
      | _ => True

/-- A removal finds its variant, or the counter above what is held; a put that stores something
finds the counter below its last number. -/
def Known (capacity : Nat) (s : Shared) : Op → Prop
  | .put _ entry => (encode entry).isSome → capacity ≠ 0 → s.held + 1 < usize
  | .remove key selector => keyFor key selector ∈ keys s ∨ count s < s.held
  | .invalidate _ | .clear => True

/-- What the counter's statements are made from. -/
structure Tallied (capacity : Nat) (s : Shared) : Prop where
  kept : Kept s
  covers : count s ≤ s.held
  bounded : count s ≤ capacity
  fits : s.held < usize

theorem tallied_new (capacity : Nat) : Tallied capacity Shared.new :=
  ⟨kept_new, Nat.le_refl 0, Nat.zero_le _, by decide⟩

theorem Kept.evicted_length_le (kept : Kept s) : (evicted capacity s).length ≤ count s := by
  rw [kept.evicted_length]
  split <;> omega

/-- A put that stores counts exactly where the counter has a next number. -/
theorem counts_put (tallied : Tallied capacity s) {key : Key} {entry : StoredResponse}
    {value : Bytes} (encoded : encode entry = some value) (room : capacity ≠ 0) :
    Counts capacity s (.put key entry) ↔ s.held + 1 < usize := by
  have covers := tallied.covers
  have bounded := tallied.bounded
  have counted := @count_put _ _ key _ _ tallied.kept encoded room
  have gone := @Kept.evicted_length _ capacity tallied.kept
  have few := @Kept.evicted_length_le _ capacity tallied.kept
  constructor
  · intro counts
    have below := tallied.fits
    by_contra last
    have wrapped : wrappingSucc s.held = 0 := if_pos (by omega)
    have enough : charged capacity s ≤ wrappingSucc s.held := by
      simp [charged, wrapped]
    have zero := @put_held _ _ key _ _ encoded room enough
    have some_held : 1 ≤ count (apply capacity s (.put key entry)) := by
      have after : values (apply capacity s (.put key entry)) = _ :=
        (put_shows tallied.kept encoded room).values
      unfold count
      rw [after, List.length_cons]
      omega
    have covered := counts.2.1
    rw [zero, wrapped] at covered
    omega
  · intro below
    have next : wrappingSucc s.held = s.held + 1 := if_neg (by omega)
    have enough : charged capacity s ≤ wrappingSucc s.held := by
      rw [charged, next]
      split <;> omega
    refine ⟨put_along encoded room enough, ?_, ?_⟩
    · rw [put_held encoded room enough, charged, next]
      split <;> omega
    · simp only
      rw [next] at gone
      split at gone <;> omega

theorem counts_remove (tallied : Tallied capacity s) (key : Key) (selector : Selector) :
    Counts capacity s (.remove key selector) ↔
      keyFor key selector ∈ keys s ∨ count s < s.held := by
  have covers := tallied.covers
  have counted := @count_remove _ capacity tallied.kept key selector
  have held : (apply capacity s (.remove key selector)).held = wrappingPred s.held := rfl
  have along : (Op.body capacity (.remove key selector)).Along (Call.handle ns) NotBelowZero s ↔
      s.held ≠ 0 := by
    simp [Op.body, remove, Program.perform, NotBelowZero]
  unfold Counts
  rw [along, held]
  simp only [and_true]
  exact wrappingPred_covers counted covers

theorem counts_iff (tallied : Tallied capacity s) (op : Op) :
    Counts capacity s op ↔ Known capacity s op := by
  cases op with
  | put key entry =>
      by_cases stored : encode entry = none ∨ capacity = 0
      · have same : apply capacity s (.put key entry) = s := put_unstored stored
        have along : (Op.body capacity (.put key entry)).Along (Call.handle ns)
            NotBelowZero s := by
          unfold Op.body put
          rcases stored with unencoded | noRoom
          · simp [unencoded]
          · cases encoded : encode entry <;> simp [encoded, noRoom]
        have known : Known capacity s (.put key entry) := by
          intro encoded room
          rcases stored with unencoded | noRoom
          · simp [unencoded] at encoded
          · exact absurd noRoom room
        have counts : Counts capacity s (.put key entry) := by
          refine ⟨along, ?_, ?_⟩
          · rw [same]
            exact tallied.covers
          · simp only [same]
            exact tallied.bounded
        exact ⟨fun _ => known, fun _ => counts⟩
      · simp only [not_or, ← Ne.eq_def, Option.ne_none_iff_exists'] at stored
        obtain ⟨⟨value, encoded⟩, room⟩ := stored
        simp only [Known, encoded, Option.isSome_some, true_imp_iff]
        exact (counts_put tallied encoded room).trans ⟨fun h _ => h, fun h => h room⟩
  | remove key selector => exact counts_remove tallied key selector
  | invalidate key =>
      have after : values (apply capacity s (.invalidate key)) = _ :=
        (invalidate_shows tallied.kept key).values
      have fewer : count (apply capacity s (.invalidate key)) ≤ count s := by
        unfold count
        rw [after]
        exact List.length_filter_le _ _
      simp only [Known, iff_true]
      exact ⟨⟨trivial, trivial⟩, fewer.trans tallied.covers, trivial⟩
  | clear =>
      have nothing : values (apply capacity s .clear) = [] := clear_shows.values
      simp only [Known, iff_true]
      refine ⟨⟨trivial, trivial, trivial⟩, ?_, trivial⟩
      simp [count, nothing]

theorem Tallied.apply (tallied : Tallied capacity s) {op : Op} (counts : Counts capacity s op) :
    Tallied capacity (apply capacity s op) := by
  refine ⟨tallied.kept.apply op, counts.2.1, ?_, runWith_fits _ tallied.fits⟩
  cases op with
  | put key entry => exact counts.2.2
  | remove key selector =>
      have counted := @count_remove _ capacity tallied.kept key selector
      have bounded := tallied.bounded
      omega
  | invalidate key =>
      have after : values (KvStore.apply capacity s (.invalidate key)) = _ :=
        (invalidate_shows tallied.kept key).values
      unfold count
      rw [after]
      exact (List.length_filter_le _ _).trans tallied.bounded
  | clear =>
      have nothing : values (KvStore.apply capacity s .clear) = [] := clear_shows.values
      simp [count, nothing]

/-- In a run of operations on an empty store the counter never goes below zero, nor below the
number of entries held, and every put leaves no more than the capacity, exactly where each
operation is known when it is made. -/
theorem counter_covers_entries_iff (capacity : Nat) (ops : List Op) :
    (sequential capacity).Always (Counts capacity) Shared.new ops ↔
      (sequential capacity).Always (Known capacity) Shared.new ops := by
  refine Machine.Always.iff_of_invariant (Tallied capacity) ?_
    (fun s op tallied => counts_iff tallied op) (tallied_new capacity)
  intro s op s' counts tallied stepped
  cases stepped
  exact tallied.apply counts

/-- A removal from an empty store takes from a counter at zero. -/
theorem remove_absent_entry_wraps : ¬ (sequential 512).Always (Counts 512) Shared.new
    [.remove ⟨.get, "https://a/".toList⟩ ⟨[]⟩] := by
  intro counts
  exact counts.1.1.1 rfl

end HClient.Cache.KvStore
