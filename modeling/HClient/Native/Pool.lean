import HClient.Core.Table
import HClient.Core.Text
import HClient.Core.Time

/-!
# The connection pool

Idle connections in buckets, one bucket for each key, the last one put the first one taken. An
exclusive connection leaves the pool when it is taken; a shared one stays and is lent.
-/
namespace HClient.Native

inductive Security where
  | plaintext
  | tls (config : Nat)
  deriving DecidableEq, Repr

inductive Protocol where
  | http11
  | h2
  deriving DecidableEq, Repr

structure PoolKey where
  security : Security
  host : Text
  port : Nat
  protocol : Protocol
  proxy : Option Text
  deriving DecidableEq, Repr

def PoolKey.new (security : Security) (host : Text) (port : Nat) (protocol : Protocol)
    (proxy : Option Text) : PoolKey :=
  ⟨security, host.toAsciiLowercase, port, protocol, proxy.map Text.toAsciiLowercase⟩

structure PoolConfig where
  idleTimeout : Duration
  maxIdlePerKey : Nat
  deriving DecidableEq, Repr

def PoolConfig.default : PoolConfig := ⟨.fromSecs 90, 8⟩

abbrev SharedId := Nat

/-- What the pool holds: a connection, or a sender of one that a task of its own drives. -/
inductive Established (C : Type) where
  | h1 (connection : C)
  | h2 (connection : C)
  | h2Shared (slot : SharedId) (sender : C)
  deriving DecidableEq, Repr

namespace Established
variable {C : Type}

/-- A clone of a shared entry. -/
def borrowed : Established C → Option (Established C)
  | .h2Shared slot sender => some (.h2Shared slot sender)
  | _ => none

def sharedSlot : Established C → Option SharedId
  | .h2Shared slot _ => some slot
  | _ => none

theorem eq_of_borrowed {est lent : Established C} (h : est.borrowed = some lent) : lent = est := by
  cases est with
  | h1 connection => cases h
  | h2 connection => cases h
  | h2Shared slot sender =>
      cases h
      rfl

end Established

structure Idle (C : Type) where
  est : Established C
  expiresAt : Duration
  deriving DecidableEq, Repr

structure Pool (C : Type) where
  config : Option PoolConfig
  idle : Table PoolKey (List (Idle C))

namespace Pool
variable {C : Type}

def new (config : Option PoolConfig) : Pool C := ⟨config, ∅⟩

/-- What is held under a key. -/
def bucket (p : Pool C) (key : PoolKey) : List (Idle C) := (p.idle.lookup key).getD []

def put (p : Pool C) (key : PoolKey) (est : Established C) (expiresAt : Duration) : Pool C :=
  match p.config with
  | none => p
  | some cfg =>
      if cfg.maxIdlePerKey = 0 then p
      else
        let bucket := p.bucket key ++ [⟨est, expiresAt⟩]
        let bucket := if cfg.maxIdlePerKey < bucket.length then bucket.tail else bucket
        { p with idle := p.idle.insert key bucket }

/-- The loop of `take` over a bucket from its end: the connection found, and what it leaves. -/
def takeLast (renewed : Option Duration) (now : Duration) :
    List (Idle C) → Option (Established C) × List (Idle C)
  | [] => (none, [])
  | entry :: rest =>
      if entry.expiresAt ≤ now then takeLast renewed now rest
      else
        match entry.est.borrowed with
        | none => (some entry.est, rest)
        | some lent => (some lent, { entry with expiresAt := renewed.getD entry.expiresAt } :: rest)

def renewed (p : Pool C) (now : Duration) : Option Duration :=
  p.config.map fun cfg => now.saturatingAdd cfg.idleTimeout

/-- The bucket left behind, and no key without one. -/
def leave (p : Pool C) (key : PoolKey) : List (Idle C) → Pool C
  | [] => { p with idle := p.idle.erase key }
  | entry :: left => { p with idle := p.idle.insert key (entry :: left) }

def take (p : Pool C) (key : PoolKey) (now : Duration) : Option (Established C) × Pool C :=
  match p.idle.lookup key with
  | none => (none, p)
  | some bucket =>
      match takeLast (p.renewed now) now bucket.reverse with
      -- `last()?` returns past the removal of the bucket
      | (none, left) => (none, { p with idle := p.idle.insert key left.reverse })
      | (some est, left) => (some est, p.leave key left.reverse)

def forgetShared (p : Pool C) (key : PoolKey) (slot : SharedId) : Pool C :=
  match p.idle.lookup key with
  | none => p
  | some bucket => p.leave key (bucket.filter fun e => e.est.sharedSlot ≠ some slot)

/-- What of a bucket a reap keeps, where it keeps anything. -/
def unexpired (now : Duration) (bucket : List (Idle C)) : Option (List (Idle C)) :=
  match bucket.filter fun e => now < e.expiresAt with
  | [] => none
  | entry :: left => some (entry :: left)

def earliest (next : Option Duration) (e : Idle C) : Option Duration :=
  some (match next with
    | some n => min n e.expiresAt
    | none => e.expiresAt)

def reap (p : Pool C) (now : Duration) : Option Duration × Pool C :=
  let idle := Table.retain (unexpired now) p.idle
  ((idle.entries.flatMap fun e => e.2).foldl earliest none, { p with idle })

section
variable {p : Pool C} {key other : PoolKey} {entries : List (Idle C)} {now : Duration}

@[simp] theorem bucket_new (config : Option PoolConfig) (key : PoolKey) :
    (new config : Pool C).bucket key = [] := rfl

theorem bucket_insert (p : Pool C) (key other : PoolKey) (entries : List (Idle C)) :
    bucket { p with idle := p.idle.insert key entries } other =
      if other = key then entries else p.bucket other := by
  unfold bucket
  by_cases same : other = key
  · rw [if_pos same, same, AList.lookup_insert, Option.getD_some]
  · rw [if_neg same, AList.lookup_insert_ne same]

theorem bucket_leave (p : Pool C) (key other : PoolKey) (entries : List (Idle C)) :
    (p.leave key entries).bucket other = if other = key then entries else p.bucket other := by
  cases entries with
  | nil =>
      unfold leave bucket
      by_cases same : other = key
      · rw [if_pos same, same, AList.lookup_erase, Option.getD_none]
      · rw [if_neg same, AList.lookup_erase_ne same]
  | cons entry left => exact bucket_insert p key other (entry :: left)

theorem lookup_leave_ne (p : Pool C) (key : PoolKey) (entries : List (Idle C)) :
    (p.leave key entries).idle.lookup key ≠ some [] := by
  cases entries with
  | nil =>
      rw [leave, AList.lookup_erase]
      exact nofun
  | cons entry left =>
      rw [leave, AList.lookup_insert]
      intro h
      cases h

theorem lookup_leave_of_ne (differ : other ≠ key) (entries : List (Idle C)) :
    (p.leave key entries).idle.lookup other = p.idle.lookup other := by
  cases entries with
  | nil => exact AList.lookup_erase_ne differ
  | cons entry left => exact AList.lookup_insert_ne differ

theorem bucket_of_lookup (h : p.idle.lookup key = some entries) : p.bucket key = entries := by
  rw [bucket, h, Option.getD_some]

theorem bucket_of_lookup_none (h : p.idle.lookup key = none) : p.bucket key = [] := by
  rw [bucket, h, Option.getD_none]

/-- The loop stops at the last entry that has not expired, and takes it or lends it. -/
theorem takeLast_spec (fresh : Option Duration) (now : Duration) (entries : List (Idle C)) :
    (takeLast fresh now entries = (none, []) ∧ ∀ e ∈ entries, e.expiresAt ≤ now) ∨
      ∃ expired entry left, entries = expired ++ entry :: left ∧
        (∀ e ∈ expired, e.expiresAt ≤ now) ∧ now < entry.expiresAt ∧
        ((entry.est.borrowed = none ∧ takeLast fresh now entries = (some entry.est, left)) ∨
          (entry.est.borrowed = some entry.est ∧ takeLast fresh now entries =
            (some entry.est,
              { entry with expiresAt := fresh.getD entry.expiresAt } :: left))) := by
  induction entries with
  | nil => exact .inl ⟨rfl, nofun⟩
  | cons first entries ih =>
      by_cases expired : first.expiresAt ≤ now
      · rw [takeLast, if_pos expired]
        rcases ih with ⟨done, all⟩ | ⟨dropped, entry, left, rfl, before, live, found⟩
        · exact .inl ⟨done, List.forall_mem_cons.mpr ⟨expired, all⟩⟩
        · exact .inr ⟨first :: dropped, entry, left, rfl,
            List.forall_mem_cons.mpr ⟨expired, before⟩, live, found⟩
      · refine .inr ⟨[], first, entries, rfl, nofun, Nat.lt_of_not_le expired, ?_⟩
        rw [takeLast, if_neg expired]
        cases lending : first.est.borrowed with
        | none => exact .inl ⟨rfl, rfl⟩
        | some lent =>
            rw [Established.eq_of_borrowed lending]
            exact .inr ⟨rfl, rfl⟩

/-- What stays of an entry that is handed out: nothing, or the entry with a new deadline. -/
def kept (fresh : Option Duration) (entry : Idle C) : List (Idle C) :=
  match entry.est.borrowed with
  | none => []
  | some _ => [{ entry with expiresAt := fresh.getD entry.expiresAt }]

/-- `take` finds no live connection, or hands out the last one there is. -/
theorem take_spec (p : Pool C) (key : PoolKey) (now : Duration) :
    (p.idle.lookup key = none ∧ p.take key now = (none, p)) ∨
      (∃ entries, p.idle.lookup key = some entries ∧ (∀ e ∈ entries, e.expiresAt ≤ now) ∧
        p.take key now = (none, { p with idle := p.idle.insert key [] })) ∨
      ∃ left entry expired, p.idle.lookup key = some (left ++ entry :: expired) ∧
        (∀ e ∈ expired, e.expiresAt ≤ now) ∧ now < entry.expiresAt ∧
        p.take key now = (some entry.est, p.leave key (left ++ kept (p.renewed now) entry)) := by
  unfold take
  cases held : p.idle.lookup key with
  | none => exact .inl ⟨rfl, rfl⟩
  | some entries =>
      refine .inr ?_
      dsimp only
      rcases takeLast_spec (p.renewed now) now entries.reverse with
        ⟨done, all⟩ | ⟨expired, entry, left, split, before, live, found⟩
      · refine .inl ⟨entries, rfl, ?_, ?_⟩
        · intro e mem
          exact all e (List.mem_reverse.mpr mem)
        · rw [done]
          rfl
      · refine .inr ⟨left.reverse, entry, expired.reverse, ?_, ?_, live, ?_⟩
        · rw [List.reverse_eq_iff.mp split]
          simp
        · intro e mem
          exact before e (List.mem_reverse.mp mem)
        · rcases found with ⟨exclusive, found⟩ | ⟨shared, found⟩
          · rw [found, kept, exclusive, List.append_nil]
          · rw [found, kept, shared]
            exact congrArg (fun left => (some entry.est, p.leave key left)) List.reverse_cons

theorem unexpired_eq (now : Duration) (entries : List (Idle C)) :
    (unexpired now entries).getD [] = entries.filter fun e => now < e.expiresAt := by
  unfold unexpired
  cases entries.filter fun e => decide (now < e.expiresAt) <;> rfl

theorem unexpired_ne (now : Duration) (entries : List (Idle C)) :
    unexpired now entries ≠ some [] := by
  unfold unexpired
  cases entries.filter fun e => decide (now < e.expiresAt) with
  | nil => exact nofun
  | cons entry left =>
      intro h
      cases h

theorem bucket_reap (p : Pool C) (now : Duration) (key : PoolKey) :
    (p.reap now).2.bucket key = (p.bucket key).filter fun e => now < e.expiresAt := by
  unfold bucket
  rw [reap, Table.lookup_retain]
  cases p.idle.lookup key with
  | none => rfl
  | some entries => exact unexpired_eq now entries

theorem lookup_reap_ne (p : Pool C) (now : Duration) (key : PoolKey) :
    (p.reap now).2.idle.lookup key ≠ some [] := by
  rw [reap, Table.lookup_retain]
  cases p.idle.lookup key with
  | none => exact nofun
  | some entries => exact unexpired_ne now entries

theorem mem_bucket_iff {e : Idle C} : e ∈ p.bucket key ↔
    ∃ entries, p.idle.lookup key = some entries ∧ e ∈ entries := by
  cases held : p.idle.lookup key with
  | none => simp [bucket_of_lookup_none held]
  | some entries => simp [bucket_of_lookup held]

/-- The fold is the least deadline of those before and those it goes through. -/
theorem foldl_earliest (entries : List (Idle C)) (next : Option Duration) :
    entries.foldl earliest next = (next.toList ++ entries.map Idle.expiresAt).min? := by
  induction entries generalizing next with
  | nil => cases next <;> rfl
  | cons entry entries ih =>
      rw [List.foldl_cons, ih]
      cases next with
      | none => rfl
      | some d =>
          simp only [earliest, Option.toList_some, List.singleton_append, List.map_cons,
            List.min?_cons', List.foldl_cons]

/-- The deadlines of what is held. -/
def deadlines (p : Pool C) : Set Duration := {d | ∃ key, ∃ e ∈ p.bucket key, e.expiresAt = d}

theorem mem_deadlines_iff {d : Duration} :
    d ∈ p.deadlines ↔ d ∈ (p.idle.entries.flatMap fun e => e.2).map Idle.expiresAt := by
  simp only [deadlines, Set.mem_ofPred_eq, List.mem_map, List.mem_flatMap]
  constructor
  · rintro ⟨key, e, mem, rfl⟩
    obtain ⟨entries, held, mem⟩ := mem_bucket_iff.mp mem
    exact ⟨e, ⟨⟨key, entries⟩, (Table.mem_entries_iff p.idle).mpr held, mem⟩, rfl⟩
  · rintro ⟨e, ⟨⟨key, entries⟩, held, mem⟩, rfl⟩
    exact ⟨key, e, mem_bucket_iff.mpr ⟨entries, (Table.mem_entries_iff p.idle).mp held, mem⟩, rfl⟩

/-- A reap answers the earliest deadline of what it leaves. -/
theorem reap_eq_some_iff (p : Pool C) (now d : Duration) :
    (p.reap now).1 = some d ↔ IsLeast (p.reap now).2.deadlines d := by
  have least : (p.reap now).1 =
      (((p.reap now).2.idle.entries.flatMap fun e => e.2).map Idle.expiresAt).min? := by
    exact foldl_earliest _ none
  rw [least, List.min?_eq_some_iff, IsLeast, mem_deadlines_iff, mem_lowerBounds]
  simp only [mem_deadlines_iff]

theorem reap_eq_none_iff (p : Pool C) (now : Duration) :
    (p.reap now).1 = none ↔ ∀ key, (p.reap now).2.bucket key = [] := by
  have least : (p.reap now).1 =
      (((p.reap now).2.idle.entries.flatMap fun e => e.2).map Idle.expiresAt).min? := by
    exact foldl_earliest _ none
  rw [least, List.min?_eq_none_iff]
  constructor
  · intro none_left key
    apply List.eq_nil_iff_forall_not_mem.mpr
    intro e mem
    have due : e.expiresAt ∈ (p.reap now).2.deadlines := ⟨key, e, mem, rfl⟩
    rw [mem_deadlines_iff, none_left] at due
    cases due
  · intro empty
    apply List.eq_nil_iff_forall_not_mem.mpr
    intro d due
    obtain ⟨key, e, mem, -⟩ := mem_deadlines_iff.mpr due
    rw [empty key] at mem
    cases mem

end
end Pool
end HClient.Native
