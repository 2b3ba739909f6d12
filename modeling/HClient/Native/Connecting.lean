import HClient.Core.Poll
import HClient.Effect.Walk
import HClient.Native.Pool

/-!
# One connect for an origin at a time

The mark that a connect takes under its key, and those who wait for it to be released. A waiter
looks only whether there is a mark, so one that another connect has taken since makes it wait again.
-/
namespace HClient.Native

/-- The marks of the connects under way, each with the wakers of those who wait for it. -/
structure Connects (W : Type) where
  connecting : Table PoolKey (List W)

namespace Connects
variable {W : Type}

def new : Connects W := ⟨∅⟩

/-- The right to open the connection, or nothing where somebody else already has it. -/
def beginConnect (c : Connects W) (key : PoolKey) : Option (Connects W) :=
  match c.connecting.lookup key with
  | some _ => none
  | none => some ⟨c.connecting.insert key []⟩

/-- The drop of the right: those who are woken, and what is left. -/
def finishConnect (c : Connects W) (key : PoolKey) : List W × Connects W :=
  ((c.connecting.lookup key).getD [], ⟨c.connecting.erase key⟩)

/-- One poll of a wait, by a task with this waker. -/
def pollWait [DecidableEq W] (c : Connects W) (key : PoolKey) (waker : W) : Poll Unit × Connects W :=
  match c.connecting.lookup key with
  | none => (.ready (), c)
  | some wakers =>
      if waker ∈ wakers then (.pending, c)
      else (.pending, ⟨c.connecting.insert key (wakers ++ [waker])⟩)

theorem pollWait_cases [DecidableEq W] (c : Connects W) (key : PoolKey) (waker : W) :
    (c.connecting.lookup key = none ∧ c.pollWait key waker = (.ready (), c)) ∨
      ∃ wakers, c.connecting.lookup key = some wakers ∧
        ((waker ∈ wakers ∧ c.pollWait key waker = (.pending, c)) ∨
          (waker ∉ wakers ∧ c.pollWait key waker =
            (.pending, ⟨c.connecting.insert key (wakers ++ [waker])⟩))) := by
  unfold pollWait
  cases c.connecting.lookup key with
  | none => exact .inl ⟨rfl, rfl⟩
  | some wakers =>
      refine .inr ⟨wakers, rfl, ?_⟩
      by_cases known : waker ∈ wakers
      · exact .inl ⟨known, if_pos known⟩
      · exact .inr ⟨known, if_neg known⟩

end Connects

/-- A future that waits for the connect of a key. -/
structure Waiter where
  id : Nat
  key : PoolKey
  deriving DecidableEq

namespace Connecting

inductive Op (W : Type) where
  | beginConnect (key : PoolKey)
  | drop (key : PoolKey)
  | poll (w : Waiter) (waker : W)
  deriving DecidableEq

inductive Seen (W : Type) where
  | began (key : PoolKey)
  | refused (key : PoolKey)
  | dropped (key : PoolKey) (woken : List W)
  | polled (w : Waiter) (waker : W) (answer : Poll Unit)
  deriving DecidableEq

/-- The marks, and the keys of the guards that tasks hold. -/
structure Scene (W : Type) where
  connects : Connects W
  guards : List PoolKey

variable {W : Type}

def Scene.initial : Scene W := ⟨.new, []⟩

/-- Only a guard that exists is dropped. -/
def Scene.step [DecidableEq W] (s : Scene W) : Op W → Option (Seen W × Scene W)
  | .beginConnect key =>
      match s.connects.beginConnect key with
      | none => some (.refused key, s)
      | some connects => some (.began key, ⟨connects, key :: s.guards⟩)
  | .drop key =>
      if key ∈ s.guards then
        some (.dropped key (s.connects.finishConnect key).1,
          ⟨(s.connects.finishConnect key).2, s.guards.erase key⟩)
      else none
  | .poll w waker =>
      some (.polled w waker (s.connects.pollWait w.key waker).1,
        { s with connects := (s.connects.pollWait w.key waker).2 })

/-- What is seen of the calls of any number of tasks, in any order, and where they lead. -/
inductive Runs [DecidableEq W] : List (Seen W) → Scene W → Prop
  | initial : Runs [] .initial
  | step {t : List (Seen W)} {s s' : Scene W} {op : Op W} {seen : Seen W} (run : Runs t s)
      (stepped : s.step op = some (seen, s')) : Runs (t ++ [seen]) s'

def Drops (key : PoolKey) (e : Seen W) : Prop := ∃ woken, e = .dropped key woken

/-- A connect of the key has begun, and its guard has not been dropped. -/
def UnderWay (key : PoolKey) (t : List (Seen W)) : Prop :=
  Effect.Since (· = .began key) (Drops key) t

/-- A waiter for the key was told to wait since the last drop, with this waker. -/
def Registered (key : PoolKey) (waker : W) (t : List (Seen W)) : Prop :=
  Effect.Since (fun e => ∃ w, e = .polled w waker .pending ∧ w.key = key) (Drops key) t

/-- The connect that the waiter was first told to wait for has ended. -/
def HasWaited (w : Waiter) (t : List (Seen W)) : Prop :=
  Effect.Then (fun e => ∃ waker, e = .polled w waker .pending) (Drops w.key) t

/-- The marks, the guards and the wakers are what the calls have left. -/
structure Follows (t : List (Seen W)) (s : Scene W) : Prop where
  single : s.guards.Nodup
  guarded : ∀ key, (s.connects.connecting.lookup key).isSome ↔ key ∈ s.guards
  underWay : ∀ key, (s.connects.connecting.lookup key).isSome ↔ UnderWay key t
  registered : ∀ key waker,
    waker ∈ (s.connects.connecting.lookup key).getD [] ↔ Registered key waker t

section
variable {t : List (Seen W)} {e : Seen W} {key : PoolKey} {waker : W}

theorem underWay_concat :
    UnderWay key (t ++ [e]) ↔ e = .began key ∨ (¬ Drops key e ∧ UnderWay key t) :=
  Effect.since_concat

theorem registered_concat : Registered key waker (t ++ [e]) ↔
    (∃ w, e = .polled w waker .pending ∧ w.key = key) ∨ (¬ Drops key e ∧ Registered key waker t) :=
  Effect.since_concat

end

namespace Follows
variable {t : List (Seen W)} {s s' : Scene W}

theorem start : Follows ([] : List (Seen W)) .initial where
  single := List.nodup_nil
  guarded key := by simp [Scene.initial, Connects.new]
  underWay key := by simp [Scene.initial, Connects.new, UnderWay, Effect.not_since_nil]
  registered key waker := by simp [Scene.initial, Connects.new, Registered, Effect.not_since_nil]

/-- Nothing waits for a connect that is not under way. -/
theorem unregistered (h : Follows t s) {key : PoolKey} (free : s.connects.connecting.lookup key = none)
    (waker : W) : ¬ Registered key waker t := by
  rw [← h.registered, free]
  exact List.not_mem_nil

theorem begin (h : Follows t s) {key : PoolKey} {connects : Connects W}
    (begun : s.connects.beginConnect key = some connects) :
    Follows (t ++ [.began key]) ⟨connects, key :: s.guards⟩ := by
  unfold Connects.beginConnect at begun
  cases held : s.connects.connecting.lookup key with
  | some wakers => simp [held] at begun
  | none =>
      rw [held] at begun
      cases begun
      constructor
      · apply h.single.cons
        rw [← h.guarded, held]
        exact nofun
      · intro other
        rcases eq_or_ne other key with rfl | differ
        · simp
        · simp [AList.lookup_insert_ne differ, h.guarded, differ]
      · intro other
        rw [underWay_concat]
        rcases eq_or_ne other key with rfl | differ
        · simp
        · simp [AList.lookup_insert_ne differ, h.underWay, Drops, Ne.symm differ]
      · intro other waker
        rw [registered_concat]
        rcases eq_or_ne other key with rfl | differ
        · simp [Drops, h.unregistered held]
        · simp [AList.lookup_insert_ne differ, h.registered, Drops]

theorem drop (h : Follows t s) (key : PoolKey) :
    Follows (t ++ [.dropped key (s.connects.finishConnect key).1])
      ⟨(s.connects.finishConnect key).2, s.guards.erase key⟩ where
  single := h.single.erase key
  guarded other := by
    rcases eq_or_ne other key with rfl | differ
    · simp [Connects.finishConnect, h.single.not_mem_erase]
    · simp [Connects.finishConnect, AList.lookup_erase_ne differ, h.guarded, List.mem_erase_of_ne differ]
  underWay other := by
    rw [underWay_concat]
    rcases eq_or_ne other key with rfl | differ
    · simp [Connects.finishConnect, Drops]
    · simp [Connects.finishConnect, AList.lookup_erase_ne differ, h.underWay, Drops, Ne.symm differ]
  registered other waker := by
    rw [registered_concat]
    rcases eq_or_ne other key with rfl | differ
    · simp [Connects.finishConnect, Drops]
    · simp [Connects.finishConnect, AList.lookup_erase_ne differ, h.registered, Drops, Ne.symm differ]

variable [DecidableEq W]

/-- A poll leaves the marks where they are, and registers its waker where there is one. -/
theorem poll (h : Follows t s) (w : Waiter) (waker : W) :
    Follows (t ++ [.polled w waker (s.connects.pollWait w.key waker).1])
      { s with connects := (s.connects.pollWait w.key waker).2 } := by
  have undropped (answer : Poll Unit) (key : PoolKey) : ¬ Drops key (.polled w waker answer) := nofun
  have wakers_of (key : PoolKey) (x : W) :
      (∃ w', (.polled w waker .pending : Seen W) = .polled w' x .pending ∧ w'.key = key) ↔
        x = waker ∧ key = w.key := by
    constructor
    · rintro ⟨w', same, rfl⟩
      cases same
      exact ⟨rfl, rfl⟩
    · rintro ⟨rfl, rfl⟩
      exact ⟨w, rfl, rfl⟩
  rcases s.connects.pollWait_cases w.key waker with
    ⟨held, done⟩ | ⟨wakers, held, ⟨known, done⟩ | ⟨unknown, done⟩⟩
  · rw [done]
    refine ⟨h.single, h.guarded, fun key => ?_, fun key x => ?_⟩
    · rw [underWay_concat, h.underWay]
      simp [undropped]
    · rw [registered_concat, h.registered]
      simp [undropped]
  · rw [done]
    have before : Registered w.key waker t := by
      rw [← h.registered, held]
      exact known
    refine ⟨h.single, h.guarded, fun key => ?_, fun key x => ?_⟩
    · rw [underWay_concat, h.underWay]
      simp [undropped]
    · rw [registered_concat, wakers_of, h.registered]
      constructor
      · exact fun earlier => .inr ⟨undropped _ _, earlier⟩
      · rintro (⟨rfl, rfl⟩ | ⟨-, earlier⟩)
        · exact before
        · exact earlier
  · rw [done]
    refine ⟨h.single, fun key => ?_, fun key => ?_, fun key x => ?_⟩
    · rw [← h.guarded]
      rcases eq_or_ne key w.key with rfl | differ
      · simp [held]
      · simp [AList.lookup_insert_ne differ]
    · rw [underWay_concat, ← h.underWay]
      rcases eq_or_ne key w.key with rfl | differ
      · simp [held, undropped]
      · simp [AList.lookup_insert_ne differ, undropped]
    · rw [registered_concat, wakers_of, ← h.registered]
      rcases eq_or_ne key w.key with rfl | differ
      · simp [held, undropped, or_comm]
      · simp [AList.lookup_insert_ne differ, undropped, differ]

theorem step (h : Follows t s) {op : Op W} {seen : Seen W}
    (stepped : s.step op = some (seen, s')) : Follows (t ++ [seen]) s' := by
  cases op with
  | beginConnect key =>
      dsimp only [Scene.step] at stepped
      cases begun : s.connects.beginConnect key with
      | none =>
          rw [begun] at stepped
          cases stepped
          have undropped (other : PoolKey) : ¬ Drops other (.refused key : Seen W) := nofun
          refine ⟨h.single, h.guarded, fun other => ?_, fun other waker => ?_⟩
          · rw [underWay_concat, h.underWay]
            simp [undropped]
          · rw [registered_concat, h.registered]
            simp [undropped]
      | some connects =>
          rw [begun] at stepped
          cases stepped
          exact h.begin begun
  | drop key =>
      dsimp only [Scene.step] at stepped
      split at stepped
      · cases stepped
        exact h.drop key
      · cases stepped
  | poll w waker =>
      cases stepped
      exact h.poll w waker

/-- A waiter resolves when it is polled while no connect of its key is under way. -/
theorem pollWait_ready_iff (h : Follows t s) (w : Waiter) (waker : W) :
    (s.connects.pollWait w.key waker).1 = .ready () ↔ ¬ UnderWay w.key t := by
  rw [← h.underWay]
  unfold Connects.pollWait
  cases s.connects.connecting.lookup w.key with
  | none => simp
  | some wakers =>
      dsimp only
      split <;> simp

end Follows

variable [DecidableEq W] {t : List (Seen W)} {s : Scene W}

theorem Runs.follows (run : Runs t s) : Follows t s := by
  induction run with
  | initial => exact .start
  | step run stepped ih => exact ih.step stepped

/-- What each call of a run answers: a drop wakes all who were told to wait for it, and a waiter is
told to wait exactly while a connect is under way. -/
theorem Runs.answers (run : Runs t s) {before later : List (Seen W)} {seen : Seen W}
    (split : t = before ++ seen :: later) :
    (∀ key woken, seen = .dropped key woken → ∀ waker, Registered key waker before → waker ∈ woken) ∧
      ∀ w waker answer, seen = .polled w waker answer →
        (answer = .ready () ↔ ¬ UnderWay w.key before) := by
  induction run generalizing later with
  | initial => cases before <;> cases split
  | @step t s s' op seen' run stepped ih =>
      rcases Effect.split_concat split with ⟨rfl, rfl, -⟩ | ⟨rest, same, -⟩
      · constructor
        · rintro key woken rfl waker registered
          cases op with
          | beginConnect other =>
              dsimp only [Scene.step] at stepped
              split at stepped <;> cases stepped
          | drop other =>
              dsimp only [Scene.step] at stepped
              split at stepped
              · cases stepped
                exact (run.follows.registered key waker).mpr registered
              · cases stepped
          | poll w other => cases stepped
        · rintro w waker answer rfl
          cases op with
          | beginConnect other =>
              dsimp only [Scene.step] at stepped
              split at stepped <;> cases stepped
          | drop other =>
              dsimp only [Scene.step] at stepped
              split at stepped <;> cases stepped
          | poll w other =>
              cases stepped
              exact run.follows.pollWait_ready_iff w waker
      · exact ih same

/-- In every run there is at most one guard for a key, and its drop wakes every waiter that was
told to wait for it. A waiter whose connect has ended resolves at each later poll exactly if no
other connect of its key is under way at that poll. -/
theorem connect_run (run : Runs t s) :
    (∀ key, s.guards.count key ≤ 1) ∧
    (∀ before later key woken, t = before ++ .dropped key woken :: later →
      ∀ waker, Registered key waker before → waker ∈ woken) ∧
    ((∀ before later w waker answer, t = before ++ .polled w waker answer :: later →
        HasWaited w before → answer = .ready ()) ↔
      ∀ before later w waker answer, t = before ++ .polled w waker answer :: later →
        HasWaited w before → ¬ UnderWay w.key before) := by
  refine ⟨?_, ?_, ?_, ?_⟩
  · intro key
    exact List.nodup_iff_count_le_one.mp run.follows.single key
  · intro before later key woken split
    exact (run.answers split).1 key woken rfl
  · intro resolves before later w waker answer split waited
    have ready := resolves before later w waker answer split waited
    exact ((run.answers split).2 w waker answer rfl).mp ready
  · intro free before later w waker answer split waited
    have unmarked := free before later w waker answer split waited
    exact ((run.answers split).2 w waker answer rfl).mpr unmarked

/-- The calls, one after another. -/
def Scene.play (s : Scene W) : List (Op W) → Option (List (Seen W) × Scene W)
  | [] => some ([], s)
  | op :: ops =>
      match s.step op with
      | none => none
      | some (seen, s') =>
          match s'.play ops with
          | none => none
          | some (t, s'') => some (seen :: t, s'')

theorem Runs.play (run : Runs t s) (ops : List (Op W)) {t' : List (Seen W)} {s' : Scene W}
    (played : s.play ops = some (t', s')) : Runs (t ++ t') s' := by
  induction ops generalizing t s t' with
  | nil =>
      cases played
      rwa [List.append_nil]
  | cons op ops ih =>
      rw [Scene.play] at played
      cases stepped : s.step op with
      | none => simp [stepped] at played
      | some answer =>
          obtain ⟨seen, next⟩ := answer
          cases rest : next.play ops with
          | none => simp [stepped, rest] at played
          | some answer =>
              obtain ⟨later, last⟩ := answer
              simp only [stepped, rest, Option.some.injEq, Prod.mk.injEq] at played
              obtain ⟨rfl, rfl⟩ := played
              have runs := ih (run.step stepped) rest
              rwa [List.append_assoc] at runs

def origin : PoolKey := .new .plaintext "example.com".toList 80 .h2 none

def inOrder : List (Op Nat) :=
  [.beginConnect origin, .poll ⟨0, origin⟩ 0, .drop origin, .poll ⟨0, origin⟩ 0,
    .beginConnect origin]

/-- The drop of a guard wakes the task that was told to wait for it. -/
theorem connect_run_inOrder : ∃ (t : List (Seen Nat)) (s : Scene Nat), Runs t s ∧
    ∃ before later woken, t = before ++ .dropped origin woken :: later ∧ 0 ∈ woken := by
  refine ⟨_, _, Runs.play .initial inOrder rfl,
    [.began origin, .polled ⟨0, origin⟩ 0 .pending], _, [0], rfl, ?_⟩
  refine (connect_run (Runs.play .initial inOrder rfl)).2.1
    [.began origin, .polled ⟨0, origin⟩ 0 .pending] _ origin [0] rfl 0 ?_
  exact ⟨[.began origin], _, [], rfl, ⟨_, rfl, rfl⟩, nofun⟩

def overtaken : List (Op Nat) :=
  [.beginConnect origin, .poll ⟨0, origin⟩ 0, .drop origin, .beginConnect origin,
    .poll ⟨0, origin⟩ 0]

/-- A waiter whose connect has ended is told to wait for another that has begun since. -/
theorem waiter_waits_again : ∃ (t : List (Seen Nat)) (s : Scene Nat), Runs t s ∧
    ∃ before later w waker answer, t = before ++ .polled w waker answer :: later ∧
      HasWaited w before ∧ answer ≠ .ready () := by
  refine ⟨_, _, Runs.play .initial overtaken rfl,
    [.began origin, .polled ⟨0, origin⟩ 0 .pending, .dropped origin [0], .began origin], [],
    ⟨0, origin⟩, 0, .pending, rfl, ?_, nofun⟩
  exact ⟨[.began origin], _, _, rfl, ⟨0, rfl⟩, .dropped origin [0], List.mem_cons_self, [0], rfl⟩

end Connecting
end HClient.Native
