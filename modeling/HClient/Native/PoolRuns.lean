import HClient.Native.Pool

/-!
# A pool in use

The calls of a pool under its lock, one after another from the empty pool on.
-/
namespace HClient.Native

inductive PoolOp (C : Type) where
  | put (key : PoolKey) (est : Established C) (expiresAt : Duration)
  | take (key : PoolKey) (now : Duration)
  | reap (now : Duration)
  | forgetShared (key : PoolKey) (slot : SharedId)
  deriving DecidableEq

namespace Pool
variable {C : Type}

def step (p : Pool C) : PoolOp C → Pool C
  | .put key est expiresAt => p.put key est expiresAt
  | .take key now => (p.take key now).2
  | .reap now => (p.reap now).2
  | .forgetShared key slot => p.forgetShared key slot

/-- The pool after the calls. -/
def after (config : Option PoolConfig) (ops : List (PoolOp C)) : Pool C :=
  ops.foldl step (new config)

section
variable [DecidableEq C] (key : PoolKey) (est : Established C)

def handsOut (p : Pool C) : PoolOp C → Bool
  | .take key' now => key' = key ∧ (p.take key' now).1 = some est
  | .put _ _ _ => false
  | .reap _ => false
  | .forgetShared _ _ => false

def timesHanded : Pool C → List (PoolOp C) → Nat
  | _, [] => 0
  | p, op :: ops => (p.handsOut key est op).toNat + timesHanded (p.step op) ops

def puts : PoolOp C → Bool
  | .put key' est' _ => key' = key ∧ est' = est
  | _ => false

def timesPut (ops : List (PoolOp C)) : Nat := ops.countP (puts key est)

def timesHeld (p : Pool C) : Nat := (p.bucket key).countP fun e => e.est = est

end

/-- No key maps to an empty bucket. -/
def NoEmptyBucket (p : Pool C) : Prop := ∀ key, p.idle.lookup key ≠ some []

/-- A `take` that finds its key finds a connection under it that has not expired. -/
def Careful (p : Pool C) (op : PoolOp C) : Prop :=
  ∀ key now entries, op = .take key now → p.idle.lookup key = some entries →
    ∃ e ∈ entries, now < e.expiresAt

/-- How a connection and its deadline came under a key: they were put there, and the deadline of
a shared connection may be that of a later `take`. -/
def Stamped (config : Option PoolConfig) (ops : List (PoolOp C)) (key : PoolKey) (e : Idle C) :
    Prop :=
  ∃ expiresAt, .put key e.est expiresAt ∈ ops ∧
    (e.expiresAt = expiresAt ∨ ∃ now cfg, .take key now ∈ ops ∧ config = some cfg ∧
      e.est.borrowed = some e.est ∧ e.expiresAt = now.saturatingAdd cfg.idleTimeout)

/-- What a call promises in a state that earlier calls lead to. -/
def Right (config : Option PoolConfig) (ops : List (PoolOp C)) (p : Pool C) : PoolOp C → Prop
  | .take key now =>
      match (p.take key now).1 with
      | some est => ∃ e ∈ p.bucket key, e.est = est ∧ now < e.expiresAt ∧ Stamped config ops key e
      | none => ∀ e ∈ p.bucket key, e.expiresAt ≤ now
  | .reap now =>
      (∀ key, (p.reap now).2.bucket key = (p.bucket key).filter fun e => now < e.expiresAt) ∧
        match (p.reap now).1 with
        | some next => IsLeast (p.reap now).2.deadlines next
        | none => ∀ key, (p.reap now).2.bucket key = []
  | .put _ _ _ => True
  | .forgetShared _ _ => True

section
variable {p : Pool C} {key : PoolKey} {e : Idle C} {cfg : PoolConfig}

@[simp] theorem config_leave (p : Pool C) (key : PoolKey) (entries : List (Idle C)) :
    (p.leave key entries).config = p.config := by
  cases entries <;> rfl

theorem config_step (p : Pool C) (op : PoolOp C) : (p.step op).config = p.config := by
  cases op with
  | put key est expiresAt =>
      dsimp only [step, put]
      split
      · rfl
      · split <;> rfl
  | take key now =>
      dsimp only [step]
      rcases take_spec p key now with ⟨-, done⟩ | ⟨entries, -, -, done⟩ |
        ⟨left, entry, expired, -, -, -, done⟩
      · rw [done]
      · rw [done]
      · rw [done, config_leave]
  | reap now => rfl
  | forgetShared key slot =>
      dsimp only [step, forgetShared]
      cases p.idle.lookup key with
      | none => rfl
      | some entries => exact config_leave _ _ _

theorem config_after (config : Option PoolConfig) (ops : List (PoolOp C)) :
    (after config ops).config = config := by
  induction ops using List.reverseRecOn with
  | nil => rfl
  | append_singleton ops op ih =>
      unfold after at ih ⊢
      rw [List.foldl_concat, config_step, ih]

/-- What `put` does where the pool takes connections. -/
theorem put_eq (config : p.config = some cfg) (room : cfg.maxIdlePerKey ≠ 0) (key : PoolKey)
    (est : Established C) (expiresAt : Duration) :
    p.put key est expiresAt = { p with
      idle := p.idle.insert key ((p.bucket key ++ [Idle.mk est expiresAt]).drop
        (if cfg.maxIdlePerKey < (p.bucket key).length + 1 then 1 else 0)) } := by
  unfold put
  simp only [config, if_neg room, List.length_append, List.length_singleton]
  congr 2
  split
  · rw [List.drop_one]
  · rw [List.drop_zero]

theorem bucket_put (config : p.config = some cfg) (room : cfg.maxIdlePerKey ≠ 0) (key other : PoolKey)
    (est : Established C) (expiresAt : Duration) :
    (p.put key est expiresAt).bucket other = if other = key then
      (p.bucket key ++ [Idle.mk est expiresAt]).drop
        (if cfg.maxIdlePerKey < (p.bucket key).length + 1 then 1 else 0)
      else p.bucket other := by
  rw [put_eq config room, bucket_insert]

/-- A `put` that the pool does not take changes nothing. -/
theorem put_refused (refused : ∀ cfg, p.config = some cfg → cfg.maxIdlePerKey = 0) (key : PoolKey)
    (est : Established C) (expiresAt : Duration) : p.put key est expiresAt = p := by
  unfold put
  cases config : p.config with
  | none => rfl
  | some cfg => exact if_pos (refused cfg config)

theorem put_cases (p : Pool C) : (∀ cfg, p.config = some cfg → cfg.maxIdlePerKey = 0) ∨
    ∃ cfg, p.config = some cfg ∧ cfg.maxIdlePerKey ≠ 0 := by
  cases p.config with
  | none => exact .inl nofun
  | some cfg =>
      by_cases none_kept : cfg.maxIdlePerKey = 0
      · refine .inl ?_
        intro cfg' same
        cases same
        exact none_kept
      · exact .inr ⟨cfg, rfl, none_kept⟩

/-- What a bucket becomes when a connection is taken from it. -/
theorem bucket_take (p : Pool C) (key other : PoolKey) (now : Duration) :
    (other ≠ key ∧ (p.take key now).2.bucket other = p.bucket other) ∨
      (other = key ∧ (p.take key now).1 = none ∧ (∀ e ∈ p.bucket key, e.expiresAt ≤ now) ∧
        (p.take key now).2.bucket key = []) ∨
      (other = key ∧ ∃ left entry expired, p.bucket key = left ++ entry :: expired ∧
        now < entry.expiresAt ∧ (p.take key now).1 = some entry.est ∧
        (p.take key now).2.bucket key = left ++ kept (p.renewed now) entry) := by
  rcases take_spec p key now with ⟨held, done⟩ | ⟨entries, held, all, done⟩ |
    ⟨left, entry, expired, held, -, live, done⟩
  · by_cases same : other = key
    · refine .inr (.inl ⟨same, ?_, ?_, ?_⟩)
      · rw [done]
      · rw [bucket_of_lookup_none held]
        exact nofun
      · rw [done, bucket_of_lookup_none held]
    · exact .inl ⟨same, by rw [done]⟩
  · by_cases same : other = key
    · refine .inr (.inl ⟨same, ?_, ?_, ?_⟩)
      · rw [done]
      · rw [bucket_of_lookup held]
        exact all
      · rw [done, bucket_insert, if_pos rfl]
    · exact .inl ⟨same, by rw [done, bucket_insert, if_neg same]⟩
  · by_cases same : other = key
    · refine .inr (.inr ⟨same, left, entry, expired, bucket_of_lookup held, live, ?_, ?_⟩)
      · rw [done]
      · rw [done, bucket_leave, if_pos rfl]
    · exact .inl ⟨same, by rw [done, bucket_leave, if_neg same]⟩

theorem bucket_forgetShared (p : Pool C) (key other : PoolKey) (slot : SharedId) :
    (p.forgetShared key slot).bucket other = if other = key then
      (p.bucket key).filter fun e => e.est.sharedSlot ≠ some slot else p.bucket other := by
  unfold forgetShared
  cases held : p.idle.lookup key with
  | none =>
      by_cases same : other = key
      · rw [if_pos same, same, bucket_of_lookup_none held, List.filter_nil]
      · rw [if_neg same]
  | some entries =>
      rw [bucket_of_lookup held]
      exact bucket_leave _ _ _ _

/-- No call takes a bucket past the bound. -/
theorem length_bucket_step (config : p.config = some cfg)
    (bounded : ∀ key, (p.bucket key).length ≤ cfg.maxIdlePerKey) (op : PoolOp C) (other : PoolKey) :
    ((p.step op).bucket other).length ≤ cfg.maxIdlePerKey := by
  cases op with
  | put key est expiresAt =>
      dsimp only [step]
      by_cases none_kept : cfg.maxIdlePerKey = 0
      · rw [put_refused]
        · exact bounded other
        · intro cfg' same
          rw [config] at same
          cases same
          exact none_kept
      · rw [bucket_put config none_kept]
        split
        · rw [List.length_drop, List.length_append, List.length_singleton]
          have before := bounded key
          split <;> omega
        · exact bounded other
  | take key now =>
      dsimp only [step]
      rcases bucket_take p key other now with ⟨-, same⟩ | ⟨rfl, -, -, none_left⟩ |
        ⟨rfl, left, entry, expired, held, -, -, found⟩
      · rw [same]
        exact bounded other
      · rw [none_left]
        exact Nat.zero_le _
      · have before := bounded other
        have one : (kept (p.renewed now) entry).length ≤ 1 := by
          unfold kept
          cases entry.est.borrowed <;> simp
        rw [held, List.length_append, List.length_cons] at before
        rw [found, List.length_append]
        omega
  | reap now =>
      dsimp only [step]
      rw [bucket_reap]
      exact Nat.le_trans (List.length_filter_le _ _) (bounded other)
  | forgetShared key slot =>
      dsimp only [step]
      rw [bucket_forgetShared]
      split
      · exact Nat.le_trans (List.length_filter_le _ _) (bounded key)
      · exact bounded other

theorem Stamped.append {config : Option PoolConfig} {ops : List (PoolOp C)}
    (h : Stamped config ops key e) (later : List (PoolOp C)) :
    Stamped config (ops ++ later) key e := by
  obtain ⟨expiresAt, put, deadline⟩ := h
  refine ⟨expiresAt, List.mem_append_left _ put, ?_⟩
  rcases deadline with same | ⟨now, cfg, taken, rest⟩
  · exact .inl same
  · exact .inr ⟨now, cfg, List.mem_append_left _ taken, rest⟩

/-- What is held after a call was held before, was put by it, or was lent by it. -/
theorem stamped_step {config : Option PoolConfig} {ops : List (PoolOp C)} (same : p.config = config)
    (stamped : ∀ key, ∀ e ∈ p.bucket key, Stamped config ops key e) (op : PoolOp C)
    (other : PoolKey) (e : Idle C) (mem : e ∈ (p.step op).bucket other) :
    Stamped config (ops ++ [op]) other e := by
  have old : e ∈ p.bucket other → Stamped config (ops ++ [op]) other e := fun held =>
    (stamped other e held).append [op]
  cases op with
  | put key est expiresAt =>
      dsimp only [step] at mem
      rcases put_cases p with refused | ⟨cfg, config, room⟩
      · rw [put_refused refused] at mem
        exact old mem
      · rw [bucket_put config room] at mem
        split at mem
        · rename_i here
          rcases List.mem_append.mp (List.mem_of_mem_drop mem) with held | new
          · rw [← here] at held
            exact old held
          · rw [List.mem_singleton] at new
            subst new here
            exact ⟨expiresAt, List.mem_append_right _ List.mem_cons_self, .inl rfl⟩
        · exact old mem
  | take key now =>
      dsimp only [step] at mem
      rcases bucket_take p key other now with ⟨-, unchanged⟩ | ⟨rfl, -, -, none_left⟩ |
        ⟨rfl, left, entry, expired, held, -, -, found⟩
      · rw [unchanged] at mem
        exact old mem
      · rw [none_left] at mem
        cases mem
      · rw [found] at mem
        rcases List.mem_append.mp mem with left | lent
        · apply old
          rw [held]
          exact List.mem_append_left _ left
        · have source : Stamped config (ops ++ [.take other now]) other entry := by
            refine (stamped other entry ?_).append _
            rw [held]
            exact List.mem_append_right _ List.mem_cons_self
          unfold kept at lent
          cases lending : entry.est.borrowed with
          | none =>
              rw [lending] at lent
              cases lent
          | some est =>
              rw [lending] at lent
              rw [List.mem_singleton] at lent
              obtain ⟨expiresAt, put, deadline⟩ := source
              subst lent
              refine ⟨expiresAt, put, ?_⟩
              cases pooling : p.config with
              | none =>
                  rw [renewed, pooling]
                  exact deadline
              | some cfg =>
                  refine .inr ⟨now, cfg, List.mem_append_right _ List.mem_cons_self, ?_, ?_, ?_⟩
                  · exact same.symm.trans pooling
                  · rw [lending, Established.eq_of_borrowed lending]
                  · rw [renewed, pooling]
                    rfl
  | reap now =>
      dsimp only [step] at mem
      rw [bucket_reap] at mem
      exact old (List.mem_of_mem_filter mem)
  | forgetShared key slot =>
      dsimp only [step] at mem
      rw [bucket_forgetShared] at mem
      split at mem
      · rename_i here
        apply old
        rw [here]
        exact List.mem_of_mem_filter mem
      · exact old mem

/-- What a call promises of its answer. -/
theorem right_step {config : Option PoolConfig} {ops : List (PoolOp C)}
    (stamped : ∀ key, ∀ e ∈ p.bucket key, Stamped config ops key e) (op : PoolOp C) :
    Right config ops p op := by
  cases op with
  | put key est expiresAt => trivial
  | take key now =>
      rcases bucket_take p key key now with ⟨differ, -⟩ | ⟨-, none_found, all, -⟩ |
        ⟨-, left, entry, expired, held, live, found, -⟩
      · exact absurd rfl differ
      · rw [Right, none_found]
        exact all
      · rw [Right, found]
        have mem : entry ∈ p.bucket key := by
          rw [held]
          exact List.mem_append_right _ List.mem_cons_self
        exact ⟨entry, mem, rfl, live, stamped key entry mem⟩
  | reap now =>
      refine ⟨bucket_reap p now, ?_⟩
      cases answer : (p.reap now).1 with
      | none => exact (reap_eq_none_iff p now).mp answer
      | some next => exact (reap_eq_some_iff p now next).mp answer
  | forgetShared key slot => trivial

/-- An exclusive connection that a call hands out is held once less. -/
theorem timesHeld_step [DecidableEq C] {est : Established C} (exclusive : est.borrowed = none)
    (p : Pool C) (key : PoolKey) (op : PoolOp C) :
    (p.handsOut key est op).toNat + timesHeld key est (p.step op) ≤
      timesHeld key est p + timesPut key est [op] := by
  cases op with
  | put key' est' expiresAt =>
      rw [handsOut, Bool.toNat_false, Nat.zero_add]
      dsimp only [step, timesHeld]
      rcases put_cases p with refused | ⟨cfg, config, room⟩
      · rw [put_refused refused]
        exact Nat.le_add_right _ _
      · rw [bucket_put config room]
        split
        · rename_i here
          subst here
          have fewer := (List.drop_sublist (if cfg.maxIdlePerKey < (p.bucket key).length + 1 then 1
            else 0) (p.bucket key ++ [Idle.mk est' expiresAt])).countP_le (p := fun e => e.est = est)
          rw [List.countP_append, List.countP_singleton] at fewer
          simp only [timesPut, puts, List.countP_singleton, decide_eq_true_eq, true_and] at fewer ⊢
          exact fewer
        · exact Nat.le_add_right _ _
  | take key' now =>
      dsimp only [step, timesHeld]
      rcases bucket_take p key' key now with ⟨differ, same⟩ | ⟨rfl, none_found, -, none_left⟩ |
        ⟨rfl, left, entry, expired, held, -, found, rest⟩
      · have other : p.handsOut key est (.take key' now) = false := by
          simp [handsOut, Ne.symm differ]
        rw [same, other, Bool.toNat_false, Nat.zero_add]
        exact Nat.le_add_right _ _
      · have nothing : p.handsOut key est (.take key now) = false := by
          simp [handsOut, none_found]
        rw [nothing, none_left]
        exact Nat.zero_le _
      · have lent : (kept (p.renewed now) entry).countP (fun e => e.est = est) = 0 := by
          unfold kept
          cases lending : entry.est.borrowed with
          | none => rfl
          | some est' =>
              rw [List.countP_singleton, if_neg]
              intro same
              rw [of_decide_eq_true same, exclusive] at lending
              cases lending
        have counted : p.handsOut key est (.take key now) = decide (entry.est = est) := by
          simp [handsOut, found]
        rw [counted, rest, held, List.countP_append, List.countP_append, List.countP_cons, lent]
        by_cases same : entry.est = est
        · simp only [same, decide_true, Bool.toNat_true, if_pos]
          omega
        · simp only [same, decide_false, Bool.toNat_false]
          omega
  | reap now =>
      rw [handsOut, Bool.toNat_false, Nat.zero_add]
      dsimp only [step, timesHeld]
      rw [bucket_reap]
      exact Nat.le_trans List.filter_sublist.countP_le (Nat.le_add_right _ _)
  | forgetShared key' slot =>
      rw [handsOut, Bool.toNat_false, Nat.zero_add]
      dsimp only [step, timesHeld]
      rw [bucket_forgetShared]
      split
      · rename_i here
        rw [here]
        exact Nat.le_trans List.filter_sublist.countP_le (Nat.le_add_right _ _)
      · exact Nat.le_add_right _ _

theorem timesHanded_le [DecidableEq C] {est : Established C} (exclusive : est.borrowed = none)
    (key : PoolKey) (ops : List (PoolOp C)) (p : Pool C) :
    timesHanded key est p ops ≤ timesHeld key est p + timesPut key est ops := by
  induction ops generalizing p with
  | nil => exact Nat.zero_le _
  | cons op ops ih =>
      have one := timesHeld_step exclusive p key op
      have rest := ih (p.step op)
      have both : timesPut key est (op :: ops) = timesPut key est [op] + timesPut key est ops :=
        @List.countP_append _ (puts key est) [op] ops
      rw [timesHanded, both]
      omega

/-- From a pool without empty buckets, a call leads to one exactly when it is careful. -/
theorem noEmptyBucket_step (full : NoEmptyBucket p) (op : PoolOp C) :
    NoEmptyBucket (p.step op) ↔ Careful p op := by
  cases op with
  | put key est expiresAt =>
      refine iff_of_true ?_ (fun _ _ _ same => by cases same)
      dsimp only [step]
      rcases put_cases p with refused | ⟨cfg, config, room⟩
      · rw [put_refused refused]
        exact full
      · rw [put_eq config room]
        intro other
        by_cases here : other = key
        · rw [here, AList.lookup_insert, Ne, Option.some_inj, List.drop_eq_nil_iff,
            List.length_append, List.length_singleton]
          split <;> omega
        · rw [AList.lookup_insert_ne here]
          exact full other
  | take key now =>
      dsimp only [step]
      rcases take_spec p key now with ⟨held, done⟩ | ⟨entries, held, all, done⟩ |
        ⟨left, entry, expired, held, -, live, done⟩
      · rw [done]
        refine iff_of_true full ?_
        intro key' now' entries same found
        cases same
        rw [held] at found
        cases found
      · rw [done]
        refine iff_of_false ?_ ?_
        · intro none_empty
          exact none_empty key (AList.lookup_insert _)
        · intro careful
          obtain ⟨e, mem, live⟩ := careful key now entries rfl held
          exact absurd live (Nat.not_lt.mpr (all e mem))
      · rw [done]
        refine iff_of_true ?_ ?_
        · intro other
          by_cases here : other = key
          · rw [here]
            exact lookup_leave_ne _ _ _
          · rw [lookup_leave_of_ne here]
            exact full other
        · intro key' now' entries same found
          cases same
          rw [held] at found
          cases found
          exact ⟨entry, List.mem_append_right _ List.mem_cons_self, live⟩
  | reap now => exact iff_of_true (lookup_reap_ne p now) (fun _ _ _ same => by cases same)
  | forgetShared key slot =>
      refine iff_of_true ?_ (fun _ _ _ same => by cases same)
      dsimp only [step, forgetShared]
      cases held : p.idle.lookup key with
      | none => exact full
      | some entries =>
          intro other
          by_cases here : other = key
          · rw [here]
            exact lookup_leave_ne _ _ _
          · dsimp only
            rw [lookup_leave_of_ne here]
            exact full other

theorem after_append (config : Option PoolConfig) (ops : List (PoolOp C)) (op : PoolOp C) :
    after config (ops ++ [op]) = (after config ops).step op :=
  List.foldl_concat _ _ _ _

theorem stamped_after (config : Option PoolConfig) (ops : List (PoolOp C)) (key : PoolKey)
    (e : Idle C) (mem : e ∈ (after config ops).bucket key) : Stamped config ops key e := by
  induction ops using List.reverseRecOn generalizing key e with
  | nil => cases mem
  | append_singleton ops op ih =>
      rw [after_append] at mem
      exact stamped_step (config_after config ops) ih op key e mem

theorem length_bucket_after (cfg : PoolConfig) (ops : List (PoolOp C)) (key : PoolKey) :
    ((after (some cfg) ops).bucket key).length ≤ cfg.maxIdlePerKey := by
  induction ops using List.reverseRecOn generalizing key with
  | nil => exact Nat.zero_le _
  | append_singleton ops op ih =>
      rw [after_append]
      exact length_bucket_step (config_after (some cfg) ops) ih op key

theorem noEmptyBucket_after_iff (config : Option PoolConfig) (ops : List (PoolOp C)) :
    (∀ before, before <+: ops → NoEmptyBucket (after config before)) ↔
      ∀ before op, before ++ [op] <+: ops → Careful (after config before) op := by
  constructor
  · intro full before op earlier
    have here := full _ earlier
    rw [after_append] at here
    exact (noEmptyBucket_step (full before ((List.prefix_append _ _).trans earlier)) op).mp here
  · intro careful before earlier
    induction before using List.reverseRecOn with
    | nil =>
        intro key
        exact nofun
    | append_singleton before op ih =>
        rw [after_append]
        exact (noEmptyBucket_step (ih ((List.prefix_append _ _).trans earlier)) op).mpr
          (careful before op earlier)

/-- In every run no bucket is past the bound, every call keeps its promise, and a connection that
cannot be shared is handed out under a key at most as often as it was put there. No key ever maps
to an empty bucket exactly when every `take` that finds its key finds a live connection there. -/
theorem pool_run [DecidableEq C] (config : Option PoolConfig) (ops : List (PoolOp C)) :
    (∀ cfg, config = some cfg → ∀ key,
      ((after config ops).bucket key).length ≤ cfg.maxIdlePerKey) ∧
    (∀ op, Right config ops (after config ops) op) ∧
    (∀ key est, est.borrowed = none →
      timesHanded key est (new config) ops ≤ timesPut key est ops) ∧
    ((∀ before, before <+: ops → NoEmptyBucket (after config before)) ↔
      ∀ before op, before ++ [op] <+: ops → Careful (after config before) op) := by
  refine ⟨?_, ?_, ?_, noEmptyBucket_after_iff config ops⟩
  · rintro cfg rfl key
    exact length_bucket_after cfg ops key
  · intro op
    exact right_step (stamped_after config ops) op
  · intro key est exclusive
    have counted := timesHanded_le exclusive key ops (new config)
    rwa [timesHeld, bucket_new, List.countP_nil, Nat.zero_add] at counted

/-- A `take` of the one connection under its key, which has expired, leaves the key behind. -/
theorem take_expired_leaves_bucket : ∃ (config : Option PoolConfig) (ops : List (PoolOp Unit)),
    ¬ NoEmptyBucket (after config ops) := by
  refine ⟨some .default, [.put (.new .plaintext "example.com".toList 80 .http11 none) (.h1 ()) 5,
    .take (.new .plaintext "example.com".toList 80 .http11 none) 6], ?_⟩
  intro full
  exact full (.new .plaintext "example.com".toList 80 .http11 none) (by decide)

end
end Pool
end HClient.Native
