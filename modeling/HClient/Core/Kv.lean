import Mathlib
import HClient.Core.Text

/-!
# The byte store

`hclient_core::kv`: namespaces of string keys, each holding the values appended under it.
`MemoryStore` is the map behind the in-memory policies, generic in the instant it compares.
-/
namespace HClient.Kv

abbrev Bytes := List UInt8

structure Slot (I : Type) where
  value : Bytes
  expires : Option I

abbrev Namespaces (I : Type) := AList fun _ : Text => AList fun _ : Text => List (Slot I)

structure MemoryStore (I : Type) where
  namespaces : Namespaces I

variable {I : Type}

def Slot.isLive [LE I] [DecidableLE I] (s : Slot I) (now : I) : Bool :=
  match s.expires with
  | none => true
  | some e => !decide (e ≤ now)

namespace MemoryStore

def new : MemoryStore I := ⟨∅⟩

/-- The slots under a key, live or not. -/
def slots (kv : MemoryStore I) (ns key : Text) : List (Slot I) :=
  ((kv.namespaces.lookup ns).bind fun keys => keys.lookup key).getD []

section
variable [LE I] [DecidableLE I]

def readOne (kv : MemoryStore I) (ns key : Text) (now : I) : List Bytes :=
  ((kv.slots ns key).filter fun s => s.isLive now).map Slot.value

def getMany (kv : MemoryStore I) (ns : Text) (keys : List Text) (now : I) : List (List Bytes) :=
  keys.map fun key => kv.readOne ns key now

def put (kv : MemoryStore I) (ns key : Text) (value : Bytes) (expires : Option I) (now : I) :
    MemoryStore I :=
  let keys := (kv.namespaces.lookup ns).getD ∅
  let live := ((keys.lookup key).getD []).filter fun s => s.isLive now
  ⟨kv.namespaces.insert ns (keys.insert key (live ++ [⟨value, expires⟩]))⟩

/-- What `scan` and `scan_many` answer: the live values under the keys it is asked for. A key that
two of the stems fit is visited once. -/
def scanWhere (kv : MemoryStore I) (ns : Text) (asked : Text → Bool) (now : I) :
    List (Text × Bytes) :=
  match kv.namespaces.lookup ns with
  | none => []
  | some keys =>
      (keys.entries.filter fun e => asked e.1).flatMap fun e =>
        (e.2.filter fun s => s.isLive now).map fun s => (e.1, s.value)

def scan (kv : MemoryStore I) (ns stem : Text) (now : I) : List (Text × Bytes) :=
  kv.scanWhere ns (fun key => stem.isPrefixOf key) now

def scanMany (kv : MemoryStore I) (ns : Text) (stems : List Text) (now : I) :
    List (Text × Bytes) :=
  kv.scanWhere ns (fun key => stems.any fun stem => stem.isPrefixOf key) now

end

def clear (kv : MemoryStore I) (ns : Text) : MemoryStore I := ⟨kv.namespaces.erase ns⟩

def dropStem (stem : Text) (keys : AList fun _ : Text => List (Slot I)) :
    AList fun _ : Text => List (Slot I) :=
  ⟨keys.entries.filter fun e => !stem.isPrefixOf e.1,
    (List.filter_sublist.map Sigma.fst).nodup keys.nodupKeys⟩

def removePrefix (kv : MemoryStore I) (ns stem : Text) : MemoryStore I :=
  match kv.namespaces.lookup ns with
  | none => kv
  | some keys =>
      if (dropStem stem keys).entries = [] then ⟨kv.namespaces.erase ns⟩
      else ⟨kv.namespaces.insert ns (dropStem stem keys)⟩

def remove (kv : MemoryStore I) (ns key : Text) : MemoryStore I :=
  match kv.namespaces.lookup ns with
  | none => kv
  | some keys =>
      if (keys.erase key).entries = [] then ⟨kv.namespaces.erase ns⟩
      else ⟨kv.namespaces.insert ns (keys.erase key)⟩

@[simp] theorem slots_new (ns key : Text) : (new : MemoryStore I).slots ns key = [] := rfl

theorem slots_put [LE I] [DecidableLE I] (kv : MemoryStore I) (ns key key' : Text) (value : Bytes)
    (expires : Option I) (now : I) :
    (kv.put ns key value expires now).slots ns key' =
      if key' = key then
        ((kv.slots ns key).filter fun s => s.isLive now) ++ [⟨value, expires⟩]
      else kv.slots ns key' := by
  by_cases same : key' = key
  · subst same
    cases h : kv.namespaces.lookup ns <;> simp [slots, put, h, -AList.insert_empty]
  · cases h : kv.namespaces.lookup ns <;>
      simp [slots, put, h, same, AList.lookup_insert_ne same, -AList.insert_empty]

theorem slots_remove (kv : MemoryStore I) (ns key key' : Text) :
    (kv.remove ns key).slots ns key' = if key' = key then [] else kv.slots ns key' := by
  cases h : kv.namespaces.lookup ns with
  | none => simp [slots, remove, h]
  | some keys =>
      have kept : ((keys.erase key).lookup key').getD [] =
          if key' = key then [] else (keys.lookup key').getD [] := by
        by_cases same : key' = key
        · subst same
          simp
        · simp [same, AList.lookup_erase_ne same]
      by_cases empty : (keys.erase key).entries = []
      · have gone : keys.erase key = ∅ := AList.ext empty
        simp only [remove, h, empty, if_true, slots, AList.lookup_erase, Option.bind_none,
          Option.getD_none, Option.bind_some]
        rw [← kept, gone]
        simp
      · simp only [remove, h, empty, if_false, slots, AList.lookup_insert, Option.bind_some]
        exact kept

@[simp] theorem slots_clear (kv : MemoryStore I) (ns key : Text) :
    (kv.clear ns).slots ns key = [] := by
  simp [slots, clear]

/-! ## The other namespaces -/

theorem slots_put_other [LE I] [DecidableLE I] (kv : MemoryStore I) {ns ns' : Text}
    (other : ns' ≠ ns) (key key' : Text) (value : Bytes) (expires : Option I) (now : I) :
    (kv.put ns key value expires now).slots ns' key' = kv.slots ns' key' := by
  simp [slots, put, AList.lookup_insert_ne other]

theorem slots_remove_other (kv : MemoryStore I) {ns ns' : Text} (other : ns' ≠ ns)
    (key key' : Text) : (kv.remove ns key).slots ns' key' = kv.slots ns' key' := by
  unfold slots remove
  cases kv.namespaces.lookup ns with
  | none => rfl
  | some keys =>
      simp only
      split
      next => rw [AList.lookup_erase_ne other]
      next => rw [AList.lookup_insert_ne other]

theorem slots_clear_other (kv : MemoryStore I) {ns ns' : Text} (other : ns' ≠ ns)
    (key : Text) : (kv.clear ns).slots ns' key = kv.slots ns' key := by
  simp [slots, clear, AList.lookup_erase_ne other]

/-! ## One namespace as a list -/

section Live
variable [LE I] [DecidableLE I] {kv : MemoryStore I} {ns key : Text} {now : I}

/-- Every live value of a namespace with its key. -/
def live (kv : MemoryStore I) (ns : Text) (now : I) : List (Text × Bytes) :=
  kv.scanWhere ns (fun _ => true) now

/-- The live values of some keys. -/
def liveIn (keys : List (Sigma fun _ : Text => List (Slot I))) (now : I) : List (Text × Bytes) :=
  keys.flatMap fun e => (e.2.filter fun s => s.isLive now).map fun s => (e.1, s.value)

theorem live_eq (kv : MemoryStore I) (ns : Text) (now : I) :
    kv.live ns now = liveIn ((kv.namespaces.lookup ns).getD ∅).entries now := by
  unfold live scanWhere liveIn
  cases kv.namespaces.lookup ns with
  | none => rfl
  | some keys =>
      simp only [List.filter_true]
      rfl

theorem liveIn_filter (asked : Text → Bool) (keys : List (Sigma fun _ : Text => List (Slot I)))
    (now : I) : liveIn (keys.filter fun e => asked e.1) now =
      (liveIn keys now).filter fun e => asked e.1 := by
  induction keys with
  | nil => rfl
  | cons e keys ih =>
      have under : (((e.2.filter fun s => s.isLive now).map fun s => (e.1, s.value)).filter
          fun e => asked e.1) =
          if asked e.1 then (e.2.filter fun s => s.isLive now).map fun s => (e.1, s.value)
          else [] := by
        rw [List.filter_map]
        by_cases wanted : asked e.1 <;> simp [Function.comp_def, wanted]
      unfold liveIn at ih ⊢
      rw [List.flatMap_cons, List.filter_append, under, ← ih]
      by_cases wanted : asked e.1 <;> simp [wanted]

theorem scanWhere_eq (kv : MemoryStore I) (ns : Text) (asked : Text → Bool) (now : I) :
    kv.scanWhere ns asked now = (kv.live ns now).filter fun e => asked e.1 := by
  rw [live_eq, ← liveIn_filter]
  unfold scanWhere liveIn
  cases kv.namespaces.lookup ns <;> rfl

@[simp] theorem live_clear : (kv.clear ns).live ns now = [] := by
  simp [live, scanWhere, clear]

@[simp] theorem live_new : (new : MemoryStore I).live ns now = [] := rfl

omit [LE I] [DecidableLE I] in
theorem kerase_eq_filter (keys : AList fun _ : Text => List (Slot I)) (key : Text) :
    (keys.erase key).entries = keys.entries.filter fun e => e.1 ≠ key := by
  have distinct : (keys.entries.map Sigma.fst).Nodup := keys.nodupKeys
  change List.kerase key keys.entries = _
  generalize keys.entries = entries at distinct ⊢
  induction entries with
  | nil => rfl
  | cons e entries ih =>
      obtain ⟨fresh, distinct⟩ := List.nodup_cons.mp distinct
      by_cases same : e.1 = key
      · have others : ∀ e' ∈ entries, decide (e'.1 ≠ key) = true := by
          intro e' member
          refine decide_eq_true fun again => fresh ?_
          rw [same, ← again]
          exact List.mem_map_of_mem member
        rw [List.kerase_cons_eq same.symm, List.filter_cons_of_neg (by simp [same]),
          List.filter_eq_self.mpr others]
      · rw [List.kerase_cons_ne (Ne.symm same), List.filter_cons_of_pos (by simp [same]),
          ih distinct]

omit [LE I] [DecidableLE I] in
theorem lookup_remove (kv : MemoryStore I) (ns key : Text) :
    ((kv.remove ns key).namespaces.lookup ns).getD ∅ =
      ((kv.namespaces.lookup ns).getD ∅).erase key := by
  unfold remove
  cases there : kv.namespaces.lookup ns with
  | none =>
      rw [there]
      rfl
  | some keys =>
      simp only [Option.getD_some]
      split
      next empty =>
        rw [AList.lookup_erase]
        exact (AList.ext empty).symm
      next => simp

theorem live_remove : (kv.remove ns key).live ns now =
    (kv.live ns now).filter fun e => e.1 ≠ key := by
  rw [live_eq, lookup_remove, kerase_eq_filter, live_eq]
  exact liveIn_filter (fun k => decide (k ≠ key)) _ now

omit [LE I] [DecidableLE I] in
theorem lookup_removePrefix (kv : MemoryStore I) (ns stem : Text) :
    ((kv.removePrefix ns stem).namespaces.lookup ns).getD ∅ =
      dropStem stem ((kv.namespaces.lookup ns).getD ∅) := by
  unfold removePrefix
  cases there : kv.namespaces.lookup ns with
  | none =>
      rw [there]
      rfl
  | some keys =>
      simp only [Option.getD_some]
      split
      next empty =>
        rw [AList.lookup_erase]
        exact (AList.ext empty).symm
      next => simp

omit [LE I] [DecidableLE I] in
theorem lookup_dropStem (stem key : Text) (keys : AList fun _ : Text => List (Slot I)) :
    (dropStem stem keys).lookup key =
      if stem.isPrefixOf key then none else keys.lookup key := by
  apply Option.ext
  intro slots
  have member : ⟨key, slots⟩ ∈ (dropStem stem keys).entries ↔
      ⟨key, slots⟩ ∈ keys.entries ∧ ¬ stem.isPrefixOf key := by
    simp [dropStem, -List.isPrefixOf_iff_prefix]
  have before : slots ∈ keys.lookup key ↔ ⟨key, slots⟩ ∈ keys.entries := AList.mem_lookup_iff
  have after : slots ∈ (dropStem stem keys).lookup key ↔
      ⟨key, slots⟩ ∈ (dropStem stem keys).entries := AList.mem_lookup_iff
  rw [← Option.mem_def, after, member, ← before]
  split
  next fits => simp [fits]
  next differs => simp [differs]

omit [LE I] [DecidableLE I] in
theorem slots_removePrefix (kv : MemoryStore I) (ns stem key : Text) :
    (kv.removePrefix ns stem).slots ns key =
      if stem.isPrefixOf key then [] else kv.slots ns key := by
  have slots_eq : ∀ kv : MemoryStore I, kv.slots ns key =
      (((kv.namespaces.lookup ns).getD ∅).lookup key).getD [] := by
    intro kv
    unfold slots
    cases kv.namespaces.lookup ns <;> rfl
  rw [slots_eq, lookup_removePrefix, lookup_dropStem, slots_eq]
  split <;> rfl

theorem live_removePrefix {stem : Text} : (kv.removePrefix ns stem).live ns now =
    (kv.live ns now).filter fun e => !stem.isPrefixOf e.1 := by
  rw [live_eq, lookup_removePrefix, live_eq]
  exact liveIn_filter (fun k => !stem.isPrefixOf k) _ now

/-- A value put where there is none stands first. -/
theorem live_put_of_empty {value : Bytes} {expires : Option I} (empty : kv.slots ns key = [])
    (lives : (⟨value, expires⟩ : Slot I).isLive now) :
    (kv.put ns key value expires now).live ns now = (key, value) :: kv.live ns now := by
  have slots : (((kv.namespaces.lookup ns).getD ∅).lookup key).getD [] = [] := by
    unfold MemoryStore.slots at empty
    cases there : kv.namespaces.lookup ns with
    | none => rfl
    | some keys => simpa [there] using empty
  have rest : liveIn (((kv.namespaces.lookup ns).getD ∅).erase key).entries now =
      kv.live ns now := by
    rw [kerase_eq_filter, live_eq]
    unfold liveIn
    generalize found : (kv.namespaces.lookup ns).getD ∅ = keys at slots ⊢
    have gone : ∀ e ∈ keys.entries, e.1 = key → e.2 = [] := by
      intro e member same
      subst same
      rw [AList.mem_lookup_iff.mpr member] at slots
      exact slots
    generalize keys.entries = entries at gone
    induction entries with
    | nil => rfl
    | cons e entries ih =>
        have ih := ih fun e' member => gone e' (List.mem_cons_of_mem _ member)
        by_cases same : e.1 = key
        · rw [List.filter_cons_of_neg (by simp [same]), List.flatMap_cons,
            gone e List.mem_cons_self same, ih]
          rfl
        · rw [List.filter_cons_of_pos (by simp [same]), List.flatMap_cons, List.flatMap_cons, ih]
  rw [live_eq]
  unfold put
  simp only [AList.lookup_insert, Option.getD_some, slots, List.filter_nil, List.nil_append]
  change liveIn (⟨key, [⟨value, expires⟩]⟩ ::
    (((kv.namespaces.lookup ns).getD ∅).erase key).entries) now = _
  rw [← rest]
  simp [liveIn, lives]

theorem mem_live {e : Text × Bytes} :
    e ∈ kv.live ns now ↔ ∃ s ∈ kv.slots ns e.1, s.isLive now ∧ s.value = e.2 := by
  rw [live_eq]
  unfold liveIn slots
  cases there : kv.namespaces.lookup ns with
  | none => simp
  | some keys =>
      simp only [Option.getD_some, Option.bind_some, List.mem_flatMap, List.mem_map,
        List.mem_filter]
      constructor
      · intro h
        obtain ⟨found, member, s, ⟨inside, lives⟩, rfl⟩ := h
        refine ⟨s, ?_, lives, rfl⟩
        rw [AList.mem_lookup_iff.mpr member]
        exact inside
      · intro h
        obtain ⟨s, inside, lives, same⟩ := h
        cases found : keys.lookup e.1 with
        | none => simp [found] at inside
        | some slots =>
            rw [found] at inside
            exact ⟨⟨e.1, slots⟩, AList.mem_lookup_iff.mp found, s, ⟨inside, lives⟩,
              Prod.ext rfl same⟩

/-- Where no key has more than one value, the keys of the live values are all different. -/
theorem nodup_live (single : ∀ key, (kv.slots ns key).length ≤ 1) :
    ((kv.live ns now).map Prod.fst).Nodup := by
  rw [live_eq]
  unfold liveIn slots at *
  cases there : kv.namespaces.lookup ns with
  | none => exact .nil
  | some keys =>
      simp only [there, Option.bind_some, Option.getD_some] at single ⊢
      rw [List.map_flatMap, List.nodup_flatMap]
      constructor
      · intro e member
        have short := single e.1
        rw [AList.mem_lookup_iff.mpr member] at short
        have few := (List.length_filter_le (fun s => s.isLive now) e.2).trans short
        cases left : e.2.filter fun s => s.isLive now with
        | nil => exact .nil
        | cons s rest =>
            rw [left] at few
            cases rest with
            | nil => exact List.nodup_singleton _
            | cons s' rest => exact absurd few (by simp)
      · have distinct : keys.entries.Pairwise fun e e' => e.1 ≠ e'.1 :=
          List.pairwise_map.mp keys.nodupKeys
        refine distinct.imp fun {a b} differ key here other => differ ?_
        simp only [List.map_map, List.mem_map, Function.comp_apply] at here other
        obtain ⟨s, -, rfl⟩ := here
        obtain ⟨s', -, same⟩ := other
        exact same.symm

end Live

end MemoryStore
end HClient.Kv
