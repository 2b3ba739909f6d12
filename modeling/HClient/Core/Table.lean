import HClient.Core.Header
import Mathlib

/-!
# Finite maps

What a `HashMap` is used for, over Mathlib's association lists without duplicate keys.
-/
namespace HClient

abbrev Table (K V : Type) := AList fun _ : K => V

namespace Table
variable {K V : Type}

def retainEntry (f : V → Option V) (e : Sigma fun _ : K => V) : Option (Sigma fun _ : K => V) :=
  (f e.2).map fun v => ⟨e.1, v⟩

theorem keys_retain_sublist (f : V → Option V) (l : List (Sigma fun _ : K => V)) :
    (l.filterMap (retainEntry f)).keys.Sublist l.keys := by
  induction l with
  | nil => exact .slnil
  | cons e l ih =>
      cases h : f e.2 with
      | none =>
          rw [List.filterMap_cons_none (by simp [retainEntry, h])]
          exact .cons _ ih
      | some v =>
          rw [List.filterMap_cons_some (b := ⟨e.1, v⟩) (by simp [retainEntry, h])]
          exact .cons_cons _ ih

/-- The table with every value changed. -/
def mapValues (g : V → V) (m : Table K V) : Table K V :=
  ⟨m.entries.map fun e => ⟨e.1, g e.2⟩, by
    have keys : (m.entries.map fun e => (⟨e.1, g e.2⟩ : Sigma fun _ : K => V)).keys =
        m.entries.keys := by
      simp [List.keys, Function.comp_def]
    exact (congrArg List.Nodup keys).mpr m.nodupKeys⟩

@[simp] theorem entries_mapValues (g : V → V) (m : Table K V) :
    (mapValues g m).entries = m.entries.map fun e => ⟨e.1, g e.2⟩ := rfl

variable [DecidableEq K]

theorem mem_entries_iff (m : Table K V) {k : K} {v : V} :
    (⟨k, v⟩ : Sigma fun _ : K => V) ∈ m.entries ↔ m.lookup k = some v :=
  AList.mem_lookup_iff.symm

/-- `HashMap::retain` with a change of the values kept. -/
def retain (f : V → Option V) (m : Table K V) : Table K V :=
  ⟨m.entries.filterMap (retainEntry f),
    (keys_retain_sublist f m.entries).nodup m.nodupKeys⟩

theorem lookup_retain (f : V → Option V) (m : Table K V) (k : K) :
    (retain f m).lookup k = (m.lookup k).bind f := by
  apply Option.ext
  intro v
  rw [← mem_entries_iff, Option.bind_eq_some_iff]
  simp only [retain, List.mem_filterMap, retainEntry, Option.map_eq_some_iff]
  constructor
  · intro h
    obtain ⟨⟨k', v'⟩, member, w, kept, same⟩ := h
    cases same
    exact ⟨v', (mem_entries_iff m).mp member, kept⟩
  · intro h
    obtain ⟨v', found, kept⟩ := h
    exact ⟨⟨k, v'⟩, (mem_entries_iff m).mpr found, v, kept, rfl⟩

theorem lookup_mapValues (g : V → V) (m : Table K V) (k : K) :
    (mapValues g m).lookup k = (m.lookup k).map g := by
  apply Option.ext
  intro v
  rw [← mem_entries_iff, Option.map_eq_some_iff]
  constructor
  · intro h
    obtain ⟨e, member, same⟩ := List.mem_map.mp h
    cases same
    exact ⟨e.2, (mem_entries_iff m).mp member, rfl⟩
  · intro h
    obtain ⟨v', found, rfl⟩ := h
    exact List.mem_map.mpr ⟨⟨k, v'⟩, (mem_entries_iff m).mpr found, rfl⟩

theorem mapValues_erase (g : V → V) (m : Table K V) (k : K) :
    mapValues g (m.erase k) = (mapValues g m).erase k := by
  refine AList.ext ?_
  exact (List.eraseP_map (p := fun e : Sigma fun _ : K => V => decide (k = e.1))
    (f := fun e => ⟨e.1, g e.2⟩) (l := m.entries)).symm

theorem mapValues_insert (g : V → V) (m : Table K V) (k : K) (v : V) :
    mapValues g (m.insert k v) = (mapValues g m).insert k (g v) := by
  have erased := congrArg AList.entries (mapValues_erase g m k)
  refine AList.ext ?_
  change ⟨k, g v⟩ :: (mapValues g (m.erase k)).entries = ⟨k, g v⟩ :: _
  rw [erased]
  rfl

omit [DecidableEq K] in
theorem mapValues_retain {g : V → V} {f : V → Option V} (m : Table K V)
    (commutes : ∀ v, f (g v) = (f v).map g) :
    mapValues g (retain f m) = retain f (mapValues g m) := by
  refine AList.ext ?_
  change List.map _ (List.filterMap (retainEntry f) m.entries) =
    List.filterMap (retainEntry f) (List.map _ m.entries)
  rw [List.map_filterMap, List.filterMap_map]
  refine List.filterMap_congr fun e _ => ?_
  simp only [retainEntry, Function.comp_apply, commutes, Option.map_map]
  rfl

/-- What the values of a table weigh together. -/
def weight (f : V → Nat) (m : Table K V) : Nat := (m.entries.map fun e => f e.2).sum

omit [DecidableEq K] in
@[simp] theorem weight_empty (f : V → Nat) : weight f (∅ : Table K V) = 0 := rfl

theorem entries_perm_erase {m : Table K V} {k : K} {v : V} (found : m.lookup k = some v) :
    m.entries.Perm (⟨k, v⟩ :: (m.erase k).entries) := by
  have member := (mem_entries_iff m).mpr found
  obtain ⟨w, before, after, fresh, split, rest⟩ :=
    List.exists_of_kerase (List.mem_keys_of_mem member)
  have same : m.lookup k = some w := (mem_entries_iff m).mp (by rw [split]; simp)
  obtain rfl : v = w := Option.some.inj (found.symm.trans same)
  change m.entries.Perm (⟨k, v⟩ :: List.kerase k m.entries)
  rw [rest, split]
  exact List.perm_middle

theorem weight_erase {f : V → Nat} {m : Table K V} {k : K} {v : V} (found : m.lookup k = some v) :
    weight f m = f v + weight f (m.erase k) := by
  unfold weight
  rw [((entries_perm_erase found).map fun e => f e.2).sum_eq, List.map_cons, List.sum_cons]

theorem erase_of_lookup_none {m : Table K V} {k : K} (missing : m.lookup k = none) :
    m.erase k = m := by
  refine AList.ext (List.kerase_of_notMem_keys ?_)
  exact AList.lookup_eq_none.mp missing

theorem weight_insert (f : V → Nat) (m : Table K V) (k : K) (v : V) :
    weight f (m.insert k v) = f v + weight f (m.erase k) := by
  change ((⟨k, v⟩ :: (m.erase k).entries).map fun e => f e.2).sum = _
  rw [List.map_cons, List.sum_cons]
  rfl

/-- A value is no heavier than its table. -/
theorem le_weight (f : V → Nat) {m : Table K V} {k : K} {v : V} (found : m.lookup k = some v) :
    f v ≤ weight f m := by
  rw [weight_erase found]
  exact Nat.le_add_right _ _

/-! ### Tables of lists, which keep no empty one -/

section
variable {α : Type}

theorem weight_keepNonempty (m : Table K (List α)) (k : K) (vs : List α) [Decidable (vs = [])] :
    weight List.length (if vs = [] then m.erase k else m.insert k vs) =
      vs.length + weight List.length (m.erase k) := by
  split
  next none_left => simp [none_left]
  next => exact weight_insert _ _ _ _

theorem lookup_keepNonempty {m : Table K (List α)} (nonempty : ∀ k, m.lookup k ≠ some [])
    (k : K) (vs : List α) [Decidable (vs = [])] (k' : K) :
    AList.lookup k' (if vs = [] then m.erase k else m.insert k vs) ≠ some [] := by
  split
  · by_cases same : k' = k
    · subst same
      simp
    · simpa [AList.lookup_erase_ne same] using nonempty k'
  next some_left =>
    by_cases same : k' = k
    · subst same
      simpa using some_left
    · simpa [AList.lookup_insert_ne same] using nonempty k'

end

end Table
end HClient

/-!
## Header maps as multimaps

What a map answers for each name, without the order in which the names stand.
-/
namespace HClient.HeaderMap

variable {V : Type} {headers headers' : HeaderMap V} {name other : HeaderName} {value : V}

@[simp] theorem getAll_remove_self (headers : HeaderMap V) (name : HeaderName) :
    (headers.remove name).getAll name = [] := by
  rw [getAll, remove, List.filter_filter, List.map_eq_nil_iff, List.filter_eq_nil_iff]
  intro field _ both
  simp at both

@[simp] theorem getAll_insert_self (headers : HeaderMap V) (name : HeaderName) (value : V) :
    (headers.insert name value).getAll name = [value] := by
  have removed := getAll_remove_self headers name
  rw [getAll] at removed
  rw [insert, append, getAll, List.filter_append, List.map_append, removed]
  simp

theorem containsKey_iff : headers.containsKey name = true ↔ headers.getAll name ≠ [] := by
  simp [containsKey, getAll]

theorem containsKey_eq_false_iff : headers.containsKey name = false ↔ headers.getAll name = [] := by
  rw [← Bool.not_eq_true, containsKey_iff, not_not]

/-- `HeaderMap::extend`: the fields added replace those of their names. -/
def extend (headers added : HeaderMap V) : HeaderMap V :=
  (headers.filter fun field => !added.containsKey field.1) ++ added

theorem getAll_extend_of_absent {added : HeaderMap V} (absent : added.getAll name = []) :
    (headers.extend added).getAll name = headers.getAll name := by
  have kept : added.containsKey name = false := containsKey_eq_false_iff.mpr absent
  rw [getAll] at absent
  rw [extend, getAll, List.filter_append, List.map_append, absent, List.append_nil,
    List.filter_filter, getAll]
  congr 2
  funext field
  by_cases same : field.1 = name
  · simp [same, kept]
  · simp [same]

/-- The two answer every name with the same values. -/
def Alike (headers headers' : HeaderMap V) : Prop :=
  ∀ name, headers.getAll name = headers'.getAll name

namespace Alike

theorem containsKey (alike : Alike headers headers') (name : HeaderName) :
    headers.containsKey name = headers'.containsKey name := by
  rw [Bool.eq_iff_iff, containsKey_iff, containsKey_iff, alike name]

theorem remove (alike : Alike headers headers') (other : HeaderName) :
    Alike (headers.remove other) (headers'.remove other) := by
  intro name
  by_cases same : name = other
  · rw [same, getAll_remove_self, getAll_remove_self]
  · rw [getAll_remove_of_ne same, getAll_remove_of_ne same, alike name]

theorem insert (alike : Alike headers headers') (other : HeaderName) (value : V) :
    Alike (headers.insert other value) (headers'.insert other value) := by
  intro name
  by_cases same : name = other
  · rw [same, getAll_insert_self, getAll_insert_self]
  · rw [getAll_insert_of_ne same, getAll_insert_of_ne same, alike name]

theorem foldl_remove (alike : Alike headers headers') (names : List HeaderName) :
    Alike (names.foldl HeaderMap.remove headers) (names.foldl HeaderMap.remove headers') := by
  induction names generalizing headers headers' with
  | nil => exact alike
  | cons other names ih => exact ih (alike.remove other)

end Alike

end HClient.HeaderMap
