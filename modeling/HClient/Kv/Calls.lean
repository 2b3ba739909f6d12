import HClient.Core.Kv
import HClient.Core.Time
import HClient.Effect.Program

/-!
# A byte store with a counter beside it

What the wrappers that bound themselves call: the byte store under one namespace, and the
atomic count of what they hold. Each call is a step of its own; the counter's arithmetic wraps.
-/
namespace HClient.Kv

open Effect

inductive Call where
  | scan (stem : Text)
  | scanMany (stems : List Text)
  | remove (key : Text)
  | put (key : Text) (value : Bytes)
  | removePrefix (stem : Text)
  | clear
  | fetchAdd
  | fetchSub
  | reset
  deriving DecidableEq

/-- The counter's calls answer what it was before. -/
abbrev Call.Answer : Call → Type
  | .scan _ | .scanMany _ => List (Text × Bytes)
  | .remove _ | .put _ _ | .removePrefix _ | .clear | .reset => Unit
  | .fetchAdd | .fetchSub => Nat

structure Shared where
  memory : MemoryStore SystemTime
  held : Nat

def Shared.new : Shared := ⟨MemoryStore.new, 0⟩

/-- The counter is a `usize`, and its arithmetic wraps. -/
def usize : Nat := 2 ^ 64

def wrappingSucc (n : Nat) : Nat := if n + 1 = usize then 0 else n + 1

def wrappingPred (n : Nat) : Nat := if n = 0 then usize - 1 else n - 1

/-- Where one key is removed, a counter above what is held stays above it, and does not wrap,
exactly where the key was there or the counter had one to spare. -/
theorem wrappingPred_covers {held before after : Nat} {there : Prop} [Decidable there]
    (counted : after + (if there then 1 else 0) = before) (covers : before ≤ held) :
    held ≠ 0 ∧ after ≤ wrappingPred held ↔ there ∨ before < held := by
  unfold wrappingPred
  by_cases there_ : there
  · rw [if_pos there_] at counted
    have some_held : held ≠ 0 := by omega
    rw [if_neg some_held]
    exact ⟨fun _ => .inl there_, fun _ => ⟨some_held, by omega⟩⟩
  · rw [if_neg there_] at counted
    split <;> simp only [there_, false_or] <;> omega

/-- No expiry is handed down, and the byte store's clock stands at the epoch. -/
def Call.handle (ns : Text) : (op : Call) → Shared → op.Answer × Shared
  | .scan stem, s => (s.memory.scan ns stem .unixEpoch, s)
  | .scanMany stems, s => (s.memory.scanMany ns stems .unixEpoch, s)
  | .remove key, s => ((), { s with memory := s.memory.remove ns key })
  | .put key value, s => ((), { s with memory := s.memory.put ns key value none .unixEpoch })
  | .removePrefix stem, s => ((), { s with memory := s.memory.removePrefix ns stem })
  | .clear, s => ((), { s with memory := s.memory.clear ns })
  | .fetchAdd, s => (s.held, { s with held := wrappingSucc s.held })
  | .fetchSub, s => (s.held, { s with held := wrappingPred s.held })
  | .reset, s => ((), { s with held := 0 })

abbrev Calls := Program Call Call.Answer

/-- One byte-store call that a change still owes. -/
inductive Step where
  | remove (key : Text)
  | put (key : Text) (value : Bytes)
  | removePrefix (stem : Text)
  deriving DecidableEq

def Step.start : Step → Calls Unit
  | .remove key => Program.perform (Call.remove key)
  | .put key value => Program.perform (Call.put key value)
  | .removePrefix stem => Program.perform (Call.removePrefix stem)

/-- The steps one after another. -/
def runSteps : List Step → Calls Unit
  | [] => pure ()
  | step :: rest => do
      step.start
      runSteps rest

/-- A decrement for each of so many victims. -/
def discount : Nat → Calls Unit
  | 0 => pure ()
  | n + 1 => do
      let _ ← Program.perform Call.fetchSub
      discount n

/-- What an eviction's plan turns into: each victim's removal is put in front of what is owed,
and a plan that counts takes each off the counter first. -/
def evict (counts : Bool) (victims : List Text) (rest : List Step) : Calls Unit := do
  discount (if counts then victims.length else 0)
  runSteps (victims.reverse.map Step.remove ++ rest)

/-! ## One call -/

/-- A call leaves the slots of a key alone, empties them or writes to them. -/
theorem slots_handle (op : Call) (ns key : Text) (s : Shared) :
    ((Call.handle ns op s).2.memory.slots ns key = s.memory.slots ns key ∧
        op ≠ .remove key ∧ ∀ value, op ≠ .put key value) ∨
      ((Call.handle ns op s).2.memory.slots ns key = [] ∧ ∀ value, op ≠ .put key value) ∨
      ∃ value, op = .put key value ∧ (s.memory.slots ns key = [] →
        (Call.handle ns op s).2.memory.slots ns key = [⟨value, none⟩]) := by
  cases op with
  | remove key' =>
      have left := MemoryStore.slots_remove s.memory ns key' key
      by_cases same : key = key'
      · exact .inr (.inl ⟨left.trans (if_pos same), nofun⟩)
      · exact .inl ⟨left.trans (if_neg same), fun e => same (Call.remove.inj e).symm, nofun⟩
  | put key' value =>
      have left := MemoryStore.slots_put s.memory ns key' key value none SystemTime.unixEpoch
      by_cases same : key = key'
      · subst same
        refine .inr (.inr ⟨value, rfl, fun empty => ?_⟩)
        rw [if_pos rfl, empty] at left
        exact left
      · exact .inl ⟨left.trans (if_neg same), nofun,
          fun value' e => same (Call.put.inj e).1.symm⟩
  | removePrefix stem =>
      have left := MemoryStore.slots_removePrefix s.memory ns stem key
      by_cases under : stem.isPrefixOf key = true
      · exact .inr (.inl ⟨left.trans (if_pos under), nofun⟩)
      · exact .inl ⟨left.trans (if_neg under), nofun, nofun⟩
  | clear => exact .inr (.inl ⟨MemoryStore.slots_clear _ _ _, nofun⟩)
  | scan | scanMany | fetchAdd | fetchSub | reset => exact .inl ⟨rfl, nofun, nofun⟩

/-! ## One after another -/

namespace Shared

/-- The values of the namespace with their keys. -/
def values (ns : Text) (s : Shared) : List (Text × Bytes) := s.memory.live ns .unixEpoch

/-- A key has one value at most, and none has an expiry of its own. -/
def Tidy (ns : Text) (s : Shared) : Prop :=
  ∀ key, (s.memory.slots ns key).length ≤ 1 ∧ ∀ slot ∈ s.memory.slots ns key, slot.expires = none

variable {ns : Text} {s : Shared}

theorem tidy_new : Shared.new.Tidy ns := fun key => by simp [Shared.new]

@[simp] theorem values_new : Shared.new.values ns = [] := rfl

theorem Tidy.nodup (tidy : s.Tidy ns) : ((s.values ns).map Prod.fst).Nodup :=
  MemoryStore.nodup_live fun key => (tidy key).1

/-- The namespace is tidy and holds these values. -/
structure Shows (ns : Text) (s : Shared) (values : List (Text × Bytes)) : Prop where
  tidy : s.Tidy ns
  values : s.values ns = values

theorem shows_remove (tidy : s.Tidy ns) (key : Text) :
    Shows ns (Call.handle ns (.remove key) s).2 ((s.values ns).filter fun e => e.1 ≠ key) := by
  refine ⟨fun key' => ?_, MemoryStore.live_remove⟩
  simp only [Call.handle, MemoryStore.slots_remove]
  split
  · simp
  · exact tidy key'

theorem shows_put (tidy : s.Tidy ns) {key : Text} (free : key ∉ (s.values ns).map Prod.fst)
    (value : Bytes) :
    Shows ns (Call.handle ns (.put key value) s).2 ((key, value) :: s.values ns) := by
  have empty : s.memory.slots ns key = [] := by
    cases there : s.memory.slots ns key with
    | nil => rfl
    | cons slot rest =>
        have lives : slot.isLive SystemTime.unixEpoch := by
          have unexpiring := (tidy key).2 slot (by simp [there])
          simp [Slot.isLive, unexpiring]
        refine absurd (List.mem_map.mpr ⟨(key, slot.value), ?_, rfl⟩) free
        exact MemoryStore.mem_live.mpr ⟨slot, by simp [there], lives, rfl⟩
  refine ⟨fun key' => ?_, MemoryStore.live_put_of_empty empty rfl⟩
  simp only [Call.handle, MemoryStore.slots_put, empty]
  split
  · exact ⟨Nat.le_refl 1, by simp⟩
  · exact tidy key'

theorem shows_clear (ns : Text) (s : Shared) : Shows ns (Call.handle ns .clear s).2 [] :=
  ⟨fun key => by simp [Call.handle], MemoryStore.live_clear⟩

theorem shows_removePrefix (tidy : s.Tidy ns) (stem : Text) :
    Shows ns (Call.handle ns (.removePrefix stem) s).2
      ((s.values ns).filter fun e => !stem.isPrefixOf e.1) := by
  refine ⟨fun key' => ?_, MemoryStore.live_removePrefix⟩
  have slots : (s.memory.removePrefix ns stem).slots ns key' =
      if stem.isPrefixOf key' then [] else s.memory.slots ns key' :=
    MemoryStore.slots_removePrefix _ _ _ _
  simp only [Call.handle, slots]
  split
  · simp
  · exact tidy key'

/-- The decrements leave the byte store alone. -/
@[simp] theorem discount_memory (n : Nat) (s : Shared) :
    ((discount n).runWith (Call.handle ns) s).2.memory = s.memory := by
  induction n generalizing s with
  | zero => rfl
  | succ n ih => exact ih _

theorem discount_held {n : Nat} {s : Shared} (enough : n ≤ s.held) :
    ((discount n).runWith (Call.handle ns) s).2.held = s.held - n := by
  induction n generalizing s with
  | zero => rfl
  | succ n ih =>
      have one : wrappingPred s.held = s.held - 1 := if_neg (by omega)
      change ((discount n).runWith (Call.handle ns)
        { s with held := wrappingPred s.held }).2.held = _
      rw [one, ih (by simp only; omega)]
      simp only
      omega

/-- The call does not take from a counter at zero. -/
def NotBelowZero (s : Shared) : Call → Prop
  | .fetchSub => s.held ≠ 0
  | _ => True

theorem discount_along {n : Nat} {s : Shared} (enough : n ≤ s.held) :
    (discount n).Along (Call.handle ns) NotBelowZero s := by
  induction n generalizing s with
  | zero => trivial
  | succ n ih =>
      have one : wrappingPred s.held = s.held - 1 := if_neg (by omega)
      refine ⟨by simp only [NotBelowZero]; omega, ?_⟩
      change (discount n).Along (Call.handle ns) NotBelowZero
        { s with held := wrappingPred s.held }
      rw [one]
      exact ih (by simp only; omega)

/-- Steps neither read nor move the counter. -/
theorem runSteps_held (steps : List Step) (s : Shared) :
    ((runSteps steps).runWith (Call.handle ns) s).2.held = s.held := by
  induction steps generalizing s with
  | nil => rfl
  | cons step steps ih => cases step <;> exact ih _

theorem runSteps_along (steps : List Step) (s : Shared) :
    (runSteps steps).Along (Call.handle ns) NotBelowZero s := by
  induction steps generalizing s with
  | nil => trivial
  | cons step steps ih => cases step <;> exact ⟨trivial, ih _⟩

theorem runSteps_append (steps rest : List Step) (s : Shared) :
    ((runSteps (steps ++ rest)).runWith (Call.handle ns) s).2 =
      ((runSteps rest).runWith (Call.handle ns)
        ((runSteps steps).runWith (Call.handle ns) s).2).2 := by
  induction steps generalizing s with
  | nil => rfl
  | cons step steps ih => cases step <;> exact ih _

theorem shows_removes (tidy : s.Tidy ns) (keys : List Text) :
    Shows ns ((runSteps (keys.map Step.remove)).runWith (Call.handle ns) s).2
      ((s.values ns).filter fun e => e.1 ∉ keys) := by
  induction keys generalizing s with
  | nil => exact ⟨tidy, by simp [runSteps]⟩
  | cons key keys ih =>
      have removed := shows_remove tidy key
      have rest := ih removed.tidy
      rw [removed.values, List.filter_filter] at rest
      refine ⟨rest.tidy, rest.values.trans (List.filter_congr fun e _ => ?_)⟩
      by_cases this : e.1 = key <;> by_cases later : e.1 ∈ keys <;> simp [this, later]

/-- A write is a remove and a put, because the byte store appends. -/
theorem shows_write (tidy : s.Tidy ns) (key : Text) (value : Bytes) :
    Shows ns ((runSteps [.remove key, .put key value]).runWith (Call.handle ns) s).2
      ((key, value) :: (s.values ns).filter fun e => e.1 ≠ key) := by
  have removed := shows_remove tidy key
  have free : key ∉ ((Call.handle ns (.remove key) s).2.values ns).map Prod.fst := by
    simp [removed.values]
  have put := shows_put removed.tidy free value
  rw [removed.values] at put
  exact put

/-- What is left once room was made and the value written: it, and what was neither evicted nor
under its key. -/
theorem shows_evict (tidy : s.Tidy ns) (counts : Bool) (victims : List Text) (key : Text)
    (value : Bytes) :
    Shows ns ((evict counts victims [.remove key, .put key value]).runWith (Call.handle ns) s).2
      ((key, value) :: (s.values ns).filter fun e => e.1 ∉ victims ∧ e.1 ≠ key) := by
  unfold evict
  simp only [Program.bind_eq, Program.runWith_bind, runSteps_append]
  generalize counted : ((discount (if counts then victims.length else 0)).runWith
    (Call.handle ns) s).2 = s₁
  have memory : s₁.memory = s.memory := by rw [← counted, discount_memory]
  have values : s₁.values ns = s.values ns := congrArg (fun m => m.live ns .unixEpoch) memory
  have tidy₁ : s₁.Tidy ns := by
    unfold Tidy
    rw [memory]
    exact tidy
  have removed := shows_removes tidy₁ victims.reverse
  have written := shows_write removed.tidy key value
  rw [removed.values, values, List.filter_filter] at written
  refine ⟨written.tidy, written.values.trans ?_⟩
  simp only [List.mem_reverse, Bool.decide_and, Bool.and_comm]

theorem evict_held {counts : Bool} {victims : List Text} {s : Shared} (rest : List Step)
    (enough : (if counts then victims.length else 0) ≤ s.held) :
    ((evict counts victims rest).runWith (Call.handle ns) s).2.held =
      s.held - if counts then victims.length else 0 := by
  unfold evict
  simp only [Program.bind_eq, Program.runWith_bind, runSteps_held]
  exact discount_held enough

theorem evict_along {counts : Bool} {victims : List Text} {s : Shared} (rest : List Step)
    (enough : (if counts then victims.length else 0) ≤ s.held) :
    (evict counts victims rest).Along (Call.handle ns) NotBelowZero s := by
  unfold evict
  simp only [Program.bind_eq, Program.along_bind]
  exact ⟨discount_along enough, runSteps_along _ _⟩

theorem wrappingSucc_lt {n : Nat} (fits : n < usize) : wrappingSucc n < usize := by
  unfold wrappingSucc
  split <;> omega

theorem wrappingPred_lt {n : Nat} (fits : n < usize) : wrappingPred n < usize := by
  unfold wrappingPred
  split <;> omega

/-- The counter stays a `usize`, whatever is called. -/
theorem runWith_fits {α : Type} (p : Calls α) {s : Shared} (fits : s.held < usize) :
    (p.runWith (Call.handle ns) s).2.held < usize := by
  induction p generalizing s with
  | done a => exact fits
  | call op next ih =>
      refine ih _ ?_
      cases op with
      | fetchAdd => exact wrappingSucc_lt fits
      | fetchSub => exact wrappingPred_lt fits
      | reset => exact Nat.lt_of_le_of_lt (Nat.zero_le _) fits
      | _ => exact fits

end Shared
end HClient.Kv

/-!
## Victims and rewrites

Which keys an eviction takes out of a scan's answer, and what a series of rewrites leaves. The
entries of a namespace are a list of values whose keys are all different.
-/
namespace HClient.Kv

section Lists
variable {V : Type} {l : List (Text × V)} {keys : List Text}

/-- Dropping keys that are all there drops as many entries. -/
theorem length_filter_keys (distinct : (l.map Prod.fst).Nodup) (different : keys.Nodup)
    (there : keys ⊆ l.map Prod.fst) :
    (l.filter fun e => e.1 ∉ keys).length + keys.length = l.length := by
  have dropped : ((l.map Prod.fst).filter fun k => k ∈ keys).Perm keys := by
    refine (List.perm_ext_iff_of_nodup (distinct.filter _) different).mpr fun k => ?_
    simp only [List.mem_filter, decide_eq_true_eq]
    exact ⟨fun h => h.2, fun h => ⟨there h, h⟩⟩
  have both := List.length_eq_length_filter_add (l := l) fun e => decide (e.1 ∈ keys)
  have inside : (l.filter fun e => decide (e.1 ∈ keys)).length = keys.length := by
    rw [← dropped.length_eq, List.filter_map, List.length_map]
    rfl
  have outside : (l.filter fun e => !decide (e.1 ∈ keys)) = l.filter fun e => e.1 ∉ keys :=
    List.filter_congr fun e _ => by simp
  rw [outside, inside] at both
  omega

theorem length_filter_ne (distinct : (l.map Prod.fst).Nodup) (key : Text)
    [Decidable (key ∈ l.map Prod.fst)] :
    (l.filter fun e => e.1 ≠ key).length + (if key ∈ l.map Prod.fst then 1 else 0) =
      l.length := by
  split
  next there =>
    have dropped := length_filter_keys distinct (List.nodup_singleton key)
      (by simpa using there)
    simpa using dropped
  next missing =>
    have whole : (l.filter fun e => e.1 ≠ key) = l := by
      refine List.filter_eq_self.mpr fun e member => decide_eq_true fun same => missing ?_
      rw [← same]
      exact List.mem_map_of_mem member
    rw [whole]
    rfl

/-- A value written in front of what was neither evicted nor under its key. -/
theorem length_evicted (distinct : (l.map Prod.fst).Nodup) (different : keys.Nodup)
    (there : keys ⊆ l.map Prod.fst) (key : Text) (value : V) :
    ((key, value) :: l.filter fun e => e.1 ∉ keys ∧ e.1 ≠ key).length + keys.length +
      (if key ∈ l.map Prod.fst ∧ key ∉ keys then 1 else 0) = l.length + 1 := by
  have rest := length_filter_keys distinct different there
  have distinct' : ((l.filter fun e => e.1 ∉ keys).map Prod.fst).Nodup :=
    distinct.sublist (List.filter_sublist.map _)
  have other := length_filter_ne distinct' key
  have both : (l.filter fun e => e.1 ∉ keys).filter (fun e => e.1 ≠ key) =
      l.filter fun e => e.1 ∉ keys ∧ e.1 ≠ key := by
    rw [List.filter_filter]
    refine List.filter_congr fun e _ => ?_
    by_cases a : e.1 = key <;> by_cases b : e.1 ∈ keys <;> simp [a, b]
  have held : key ∈ (l.filter fun e => e.1 ∉ keys).map Prod.fst ↔
      key ∈ l.map Prod.fst ∧ key ∉ keys := by
    simp only [List.mem_map, List.mem_filter, decide_eq_true_eq]
    constructor
    · intro h
      obtain ⟨e, ⟨member, kept⟩, same⟩ := h
      exact ⟨⟨e, member, same⟩, same ▸ kept⟩
    · intro h
      obtain ⟨⟨e, member, same⟩, kept⟩ := h
      exact ⟨e, ⟨member, same.symm ▸ kept⟩, same⟩
  rw [both] at other
  simp only [held] at other
  rw [List.length_cons]
  omega

end Lists

/-! ## Victims -/

/-- The keys of the first so many, in the order of `before`. -/
def choose {α : Type} (before : α → α → Bool) (key : α → Text) (n : Nat) (found : List α) :
    List Text :=
  ((found.insertionSort fun a b => before a b).take n).map key

section Choose
variable {α : Type} {before : α → α → Bool} {key : α → Text} {n : Nat} {found : List α}

theorem choose_subset : choose before key n found ⊆ found.map key := by
  intro k member
  obtain ⟨a, taken, rfl⟩ := List.mem_map.mp member
  exact List.mem_map_of_mem ((List.mem_insertionSort _).mp (List.mem_of_mem_take taken))

theorem choose_nodup (distinct : (found.map key).Nodup) : (choose before key n found).Nodup := by
  have sorted : ((found.insertionSort fun a b => before a b).map key).Perm (found.map key) :=
    (List.perm_insertionSort _ found).map key
  have all := sorted.nodup_iff.mpr distinct
  exact all.sublist ((List.take_sublist _ _).map key)

theorem choose_length : (choose before key n found).length = min n found.length := by
  rw [choose, List.length_map, List.length_take, List.length_insertionSort]

/-- One victim is the first of all. -/
theorem choose_one : choose before key 1 found =
    ((found.insertionSort fun a b => before a b).head?.map key).toList := by
  unfold choose
  cases found.insertionSort fun a b => before a b <;> rfl

end Choose

/-! ## Rewrites -/

/-- The steps that write values again under keys that have them. -/
def writes (entries : List (Text × Bytes)) : List Step :=
  entries.flatMap fun e => [.remove e.1, .put e.1 e.2]

namespace Shared
variable {ns : Text} {s : Shared}

/-- Values written under different keys stand in front of those of all other keys. -/
theorem shows_writes (tidy : s.Tidy ns) {entries : List (Text × Bytes)}
    (distinct : (entries.map Prod.fst).Nodup) :
    Shows ns ((runSteps (writes entries)).runWith (Call.handle ns) s).2
      (entries.reverse ++ (s.values ns).filter fun e => e.1 ∉ entries.map Prod.fst) := by
  induction entries generalizing s with
  | nil => exact ⟨tidy, by simp [writes, runSteps]⟩
  | cons e entries ih =>
      obtain ⟨fresh, distinct⟩ := List.nodup_cons.mp distinct
      have first := shows_write tidy e.1 e.2
      have rest := ih first.tidy distinct
      have split : writes (e :: entries) = [.remove e.1, .put e.1 e.2] ++ writes entries := rfl
      rw [split, runSteps_append]
      refine ⟨rest.tidy, rest.values.trans ?_⟩
      have others : ((s.values ns).filter fun e' => e'.1 ≠ e.1).filter
          (fun e' => e'.1 ∉ entries.map Prod.fst) =
          (s.values ns).filter fun e' => e'.1 ∉ (e :: entries).map Prod.fst := by
        rw [List.filter_filter]
        refine List.filter_congr fun e' _ => ?_
        by_cases this : e'.1 = e.1 <;> by_cases later : e'.1 ∈ entries.map Prod.fst <;>
          simp_all
      rw [first.values, List.filter_cons_of_pos (by simpa using fresh), others]
      simp

end Shared
end HClient.Kv
