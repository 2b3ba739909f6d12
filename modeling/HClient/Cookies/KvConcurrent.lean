import HClient.Effect.History
import HClient.Cookies.Checked
import HClient.Cookies.KvRuns

/-!
# Puts and touches under way together

Any number of puts and touches over one byte store, each call on it a step of its own. A
replacement is a removal and then a write, and a touch writes again what an earlier scan read,
so that a write in between is where a key comes to have two values or a put is undone.
-/
namespace HClient.Cookies.KvStore

open Effect Kv

namespace Concurrent

inductive Request where
  | put (cookie : Cookie) (fits : cookie.SeqFits)
  | touch (keys : List CookieKey) (now : SystemTime)

def Request.isPut : Request → Bool
  | .put _ _ => true
  | .touch _ _ => false

def Request.body (capacity : Capacity) : Request → Calls Unit
  | .put cookie _ => KvStore.put capacity cookie
  | .touch keys now => KvStore.touch keys now

/-- Requests over one store. -/
def requests (capacity : Capacity) : System Request Call Call.Answer Unit Shared where
  body := Request.body capacity
  enter _ s := some s
  handle := Call.handle ns

abbrev Requests := Pool Nat Request Call Call.Answer Unit Shared
abbrev RequestLabel := Label Nat Request

def Requests.start : Requests := ⟨Shared.new, fun _ => none⟩

abbrev slotsOf (s : Requests) (key : Text) : List (Slot SystemTime) :=
  s.shared.memory.slots ns key

/-- Once every request has completed there is one value at most under a key: that of a put of
the key but for its last access, and every other put of the key had made a call before that put
wrote. -/
def OneEach (capacity : Capacity) (labels : List RequestLabel) : Prop :=
  ∀ s, (requests capacity).run Requests.start labels = some s → s.Finished → ∀ key,
    (slotsOf s key).length ≤ 1 ∧ ∀ slot ∈ slotsOf s key, ∃ n i cookie fits value,
      labels[n]? = some (.advance i) ∧
      (requests capacity).callAt Requests.start labels n =
        some (.put cookie fits, .put key value) ∧
      keyFor (CookieKey.of cookie) = key ∧
      (∃ t, decode slot.value = some { cookie.kept with lastAccess := t }) ∧
      ∀ j cookie' fits', j ≠ i → s.aboutOf j = some (.put cookie' fits') →
        keyFor (CookieKey.of cookie') = key → ∃ m, m < n ∧ labels[m]? = some (.advance j)

/-! ## The condition -/

instance : (op : Call) → Inhabited op.Answer
  | .scan _ | .scanMany _ => ⟨([] : List (Text × Bytes))⟩
  | .remove _ | .put _ _ | .removePrefix _ | .clear | .reset => ⟨()⟩
  | .fetchAdd | .fetchSub => ⟨(0 : Nat)⟩

/-- The next call of a task is to write under the key. -/
def writesNext (key : Text) (left : Calls Unit) : Prop :=
  ∃ value, left.ahead.head? = some (.put key value)

/-- A task has a write under the key to make. -/
def writesLater (key : Text) (left : Calls Unit) : Prop := ∃ value, .put key value ∈ left.ahead

/-- A write under the key would come between two steps of the task: between its removal of the
key and its own write, or, where it is a put that writes, between a touch's scan and what the
touch writes again. -/
def Exposed (writer : Request) (key : Text) (about : Request) (left : Calls Unit) : Prop :=
  writesNext key left ∨ (writer.isPut ∧ !about.isPut ∧ writesLater key left)

/-- The condition on a step: a cookie put can be encoded, and a write comes between no two steps
of another task. -/
def Orderly (s : Requests) : RequestLabel → Prop
  | .start _ (.put cookie _) => (encode cookie).isSome
  | .start _ (.touch _ _) => True
  | .advance i => ∀ c ∈ s.nextOp (.advance i), ∀ key value, c.2 = .put key value →
      ∀ j about left, j ≠ i → s.task j = some ⟨about, left⟩ → ¬ Exposed c.1 key about left

/-! ## What the tasks do -/

/-- The byte-store call that a step makes. -/
def callOf : Step → Call
  | .remove key => .remove key
  | .put key value => .put key value
  | .removePrefix stem => .removePrefix stem

theorem runSteps_straight (steps : List Step) :
    (runSteps steps).Straight (steps.map callOf) := by
  induction steps with
  | nil => trivial
  | cons step steps ih => cases step <;> exact ⟨rfl, fun _ => ih⟩

def NoWrite (op : Call) : Prop := ∀ key value, op ≠ .put key value

/-- The two calls that a put ends in. -/
def replaces (key : Text) (value : Bytes) : List Call := [.remove key, .put key value]

theorem runSteps_closes (victims : List Text) (key : Text) (value : Bytes) :
    (runSteps (victims.map Step.remove ++ [.remove key, .put key value])).Closes NoWrite
      (replaces key value) := by
  induction victims with
  | nil =>
      have straight : (runSteps [.remove key, .put key value]).Straight (replaces key value) :=
        runSteps_straight [.remove key, .put key value]
      exact straight.closes
  | cons victim victims ih => exact .inr ⟨nofun, fun _ => ih⟩

theorem evict_closes (counts : Bool) (victims : List Text) (key : Text) (value : Bytes) :
    (evict counts victims [.remove key, .put key value]).Closes NoWrite
      (replaces key value) := by
  have rest := runSteps_closes victims.reverse key value
  unfold evict
  generalize (if counts then victims.length else 0) = n
  induction n with
  | zero => exact rest
  | succ n ih => exact .inr ⟨nofun, fun _ => ih⟩

variable {cookie : Cookie}

theorem put_closes (capacity : Capacity) {value : Bytes}
    (encoded : encode cookie = some value) : (KvStore.put capacity cookie).Closes NoWrite
      (replaces (keyFor (CookieKey.of cookie)) value) := by
  unfold KvStore.put
  rw [encoded]
  refine .inr ⟨nofun, fun held => ?_⟩
  simp only [Program.done_bind]
  split
  · exact .inr ⟨nofun, fun found => evict_closes _ _ _ _⟩
  · exact .inr ⟨nofun, fun found => evict_closes _ _ _ _⟩

theorem writes_cons (e : Text × Bytes) (entries : List (Text × Bytes)) :
    (writes (e :: entries)).map callOf =
      .remove e.1 :: .put e.1 e.2 :: (writes entries).map callOf := rfl

theorem suffix_writes {ops : List Call} {entries : List (Text × Bytes)}
    (suffix : ops <:+ (writes entries).map callOf) :
    (∃ rest, rest <:+ entries ∧ ops = (writes rest).map callOf) ∨
      ∃ e rest, e :: rest <:+ entries ∧ ops = .put e.1 e.2 :: (writes rest).map callOf := by
  induction entries with
  | nil =>
      rw [List.suffix_nil.mp suffix]
      exact .inl ⟨[], List.suffix_refl _, rfl⟩
  | cons e entries ih =>
      rw [writes_cons, List.suffix_cons_iff, List.suffix_cons_iff] at suffix
      rcases suffix with rfl | rfl | suffix
      · exact .inl ⟨_, List.suffix_refl _, rfl⟩
      · exact .inr ⟨e, entries, List.suffix_refl _, rfl⟩
      · rcases ih suffix with ⟨rest, within, same⟩ | ⟨e', rest, within, same⟩
        · exact .inl ⟨rest, within.trans (List.suffix_cons e entries), same⟩
        · exact .inr ⟨e', rest, within.trans (List.suffix_cons e entries), same⟩

/-- What is left of a request. A put still closes in its removal and its write, or has only the
write to make, or nothing; a touch scans, or is at one of its pairs. -/
def Left : Request → Calls Unit → Prop
  | .put cookie _, p => ∀ value, encode cookie = some value →
      let key := keyFor (CookieKey.of cookie)
      p.Closes NoWrite (replaces key value) ∨ p.Straight [.put key value] ∨ p.Straight []
  | .touch keys now, p =>
      (p = .call (.scanMany (stemsOf keys)) fun found =>
        runSteps (touchSteps (keys.map keyFor) now found)) ∨
      (∃ entries, p.Straight ((writes entries).map callOf)) ∨
      ∃ (e : Text × Bytes) (entries : _), p.Straight (.put e.1 e.2 :: (writes entries).map callOf)

theorem left_of_steps {capacity : Capacity} {about : Request} {p : Calls Unit}
    {t : List (Program.Event Call Call.Answer)} (steps : (about.body capacity).Steps t p) :
    Left about p := by
  cases about with
  | put cookie fits =>
      intro value encoded key
      rcases (put_closes capacity encoded).of_steps steps with closes | ⟨ops, suffix, straight⟩
      · exact .inl closes
      · simp only [replaces, List.suffix_cons_iff, List.suffix_nil] at suffix
        rcases suffix with rfl | rfl | rfl
        · exact .inl straight.closes
        · exact .inr (.inl straight)
        · exact .inr (.inr straight)
  | touch keys now =>
      simp only [Request.body, KvStore.touch] at steps
      split at steps
      · obtain ⟨-, rfl⟩ := steps.done_inv
        exact .inr (.inl ⟨[], trivial⟩)
      · cases steps with
        | refl => exact .inl rfl
        | step found rest =>
            have straight := runSteps_straight (touchSteps (keys.map keyFor) now found)
            obtain ⟨ops, suffix, left⟩ := straight.of_steps rest
            rw [touchSteps_eq] at suffix
            rcases suffix_writes suffix with ⟨entries, -, rfl⟩ | ⟨e, entries, -, rfl⟩
            · exact .inr (.inl ⟨entries, left⟩)
            · exact .inr (.inr ⟨e, entries, left⟩)

theorem left_of_residual {capacity : Capacity} {s : Requests}
    (residual : (requests capacity).Residual s) {i : Nat} {about : Request} {p : Calls Unit}
    (there : s.task i = some ⟨about, p⟩) : Left about p := by
  obtain ⟨t, steps⟩ := residual i _ there
  exact left_of_steps steps

/-- A put that has yet to remove its key has yet to write under it. -/
theorem closes_ahead {p : Calls Unit} {key : Text} {value : Bytes}
    (closes : p.Closes NoWrite (replaces key value)) :
    .remove key ∈ p.ahead ∧ .put key value ∈ p.ahead := by
  have suffix := closes.suffix_ahead
  exact ⟨suffix.subset (by simp [replaces]), suffix.subset (by simp [replaces])⟩

/-- A write comes right after the removal of its key. -/
theorem removal_before_write {about : Request} {op : Call} {next : op.Answer → Calls Unit}
    (left : Left about (.call op next))
    (encodes : ∀ cookie fits, about = .put cookie fits → (encode cookie).isSome) (r : op.Answer)
    {key : Text} {value : Bytes} {next' : Unit → Calls Unit}
    (writes : next r = .call (.put key value) next') : op = .remove key := by
  cases about with
  | put cookie fits =>
      obtain ⟨bytes, encoded⟩ := Option.isSome_iff_exists.mp (encodes cookie fits rfl)
      rcases left bytes encoded with (straight | ⟨-, later⟩) | straight | straight
      · obtain ⟨rfl, rest⟩ := straight
        have second := rest r
        rw [writes] at second
        cases second.1
        rfl
      · have closes := later r
        rw [writes] at closes
        rcases closes with straight | ⟨noWrite, -⟩
        · cases straight.1
        · exact absurd rfl (noWrite key value)
      · obtain ⟨rfl, rest⟩ := straight
        have second := rest r
        rw [writes] at second
        exact second.elim
      · exact straight.elim
  | touch keys now =>
      rcases left with same | ⟨entries, straight⟩ | ⟨e, entries, straight⟩
      · cases same
        simp only at writes
        have straight := runSteps_straight (touchSteps (keys.map keyFor) now r)
        rw [writes, touchSteps_eq] at straight
        cases found : List.filterMap (rewriteOf (keys.map keyFor) now) r with
        | nil =>
            rw [found] at straight
            exact straight.elim
        | cons e entries =>
            rw [found, writes_cons] at straight
            cases straight.1
      · cases entries with
        | nil => exact straight.elim
        | cons e entries =>
            rw [writes_cons] at straight
            obtain ⟨rfl, rest⟩ := straight
            have second := rest r
            rw [writes] at second
            cases second.1
            rfl
      · obtain ⟨rfl, rest⟩ := straight
        have second := rest r
        rw [writes] at second
        cases entries with
        | nil => exact second.elim
        | cons e' entries => cases second.1

/-! ## The invariant -/

/-- Where a task's next call is a write, nothing stands under its key. -/
structure Cleared (capacity : Capacity) (s : Requests) : Prop where
  residual : (requests capacity).Residual s
  encodes : ∀ i cookie fits p, s.task i = some ⟨.put cookie fits, p⟩ → (encode cookie).isSome
  cleared : ∀ i about key value next,
    s.task i = some ⟨about, .call (.put key value) next⟩ → slotsOf s key = []
  atMostOne : ∀ key, (slotsOf s key).length ≤ 1

variable {capacity : Capacity}

theorem cleared_start : Cleared capacity Requests.start := by
  refine ⟨?_, ?_, ?_, fun key => ?_⟩
  · intro i task there
    cases there
  · intro i cookie fits p there
    cases there
  · intro i about key value next there
    cases there
  · exact Nat.zero_le 1

theorem Cleared.step {s s' : Requests} {l : RequestLabel} (h : Cleared capacity s)
    (orderly : Orderly s l) (stepped : (requests capacity).step s l = some s') :
    Cleared capacity s' := by
  refine ⟨System.residual_step h.residual stepped, ?_, ?_, ?_⟩
  · intro j cookie fits p there
    cases l with
    | start i about =>
        obtain ⟨free, shared, entered, rfl⟩ := System.step_start stepped
        rw [Pool.put_task_eq_some] at there
        rcases there with ⟨rfl, there⟩ | ⟨same, there⟩
        · cases there
          exact orderly
        · exact h.encodes j cookie fits p there
    | advance i =>
        obtain ⟨about, op, next, here, rfl⟩ := System.step_advance stepped
        rw [Pool.put_task_eq_some] at there
        rcases there with ⟨rfl, there⟩ | ⟨same, there⟩
        · cases there
          exact h.encodes j cookie fits _ here
        · exact h.encodes j cookie fits p there
  · intro j about key value next there
    cases l with
    | start i about' =>
        obtain ⟨free, shared, entered, rfl⟩ := System.step_start stepped
        cases entered
        rw [Pool.put_task_eq_some] at there
        rcases there with ⟨rfl, there⟩ | ⟨same, there⟩
        · exfalso
          cases about' with
          | put cookie fits =>
              obtain ⟨bytes, encoded⟩ := Option.isSome_iff_exists.mp orderly
              simp only [Task.mk.injEq] at there
              have body := there.2
              simp [requests, Request.body, KvStore.put, encoded] at body
          | touch keys now =>
              simp only [Task.mk.injEq] at there
              have body := there.2
              simp only [requests, Request.body, KvStore.touch] at body
              split at body <;> cases body
        · exact h.cleared j about key value next there
    | advance i =>
        obtain ⟨about', op, next', here, rfl⟩ := System.step_advance stepped
        change (Call.handle ns op s.shared).2.memory.slots ns key = []
        rw [Pool.put_task_eq_some] at there
        rcases there with ⟨rfl, there⟩ | ⟨same, there⟩
        · simp only [Task.mk.injEq] at there
          obtain ⟨rfl, there⟩ := there
          have removes := removal_before_write (left_of_residual h.residual here)
            (fun cookie fits e => h.encodes j cookie fits _ (e ▸ here)) _ there
          subst removes
          change (s.shared.memory.remove ns key).slots ns key = []
          rw [MemoryStore.slots_remove, if_pos rfl]
        · rcases slots_handle op ns key s.shared with ⟨still, -⟩ | ⟨empty, -⟩ | ⟨v, rfl, -⟩
          · rw [still]
            exact h.cleared j about key value next there
          · exact empty
          · refine absurd (.inl ⟨value, ?_⟩) (orderly (about', .put key v)
              (by simp [Pool.nextOp, here]) key v rfl j about _ same there)
            rfl
  · intro key
    cases l with
    | start i about =>
        obtain ⟨free, shared, entered, rfl⟩ := System.step_start stepped
        cases entered
        exact h.atMostOne key
    | advance i =>
        obtain ⟨about, op, next, here, rfl⟩ := System.step_advance stepped
        change ((Call.handle ns op s.shared).2.memory.slots ns key).length ≤ 1
        rcases slots_handle op ns key s.shared with ⟨still, -⟩ | ⟨empty, -⟩ | ⟨v, rfl, written⟩
        · rw [still]
          exact h.atMostOne key
        · rw [empty]
          exact Nat.zero_le 1
        · rw [written (h.cleared i about key v next here)]
          exact Nat.le_refl 1

theorem cleared_of_orderly {labels : List RequestLabel} {s : Requests}
    (orderly : (requests capacity).Always Orderly Requests.start labels)
    (reached : (requests capacity).run Requests.start labels = some s) : Cleared capacity s :=
  System.run_preserves (fun _ _ _ orderly h stepped => h.step orderly stepped) orderly
    cleared_start reached

/-! ## Where a value comes from -/

/-- The value is that of a put of the key but for its last access; each other put of the key that
had made no call before that put wrote still owes what `owes` says. -/
def WrittenBy (capacity : Capacity) (owes : Text → Calls Unit → Prop) (labels : List RequestLabel)
    (s : Requests) (key : Text) (bytes : Bytes) : Prop :=
  ∃ n i cookie fits value, labels[n]? = some (.advance i) ∧
    (requests capacity).callAt Requests.start labels n =
      some (.put cookie fits, .put key value) ∧
    keyFor (CookieKey.of cookie) = key ∧
    (∃ t, decode bytes = some { cookie.kept with lastAccess := t }) ∧
    ∀ j cookie' fits' p, j ≠ i → s.task j = some ⟨.put cookie' fits', p⟩ →
      keyFor (CookieKey.of cookie') = key →
      (∃ m, m < n ∧ labels[m]? = some (.advance j)) ∨ owes key p

def removesLater (key : Text) (left : Calls Unit) : Prop := .remove key ∈ left.ahead

variable {labels : List RequestLabel} {s s' : Requests} {l : RequestLabel} {key : Text}
  {bytes : Bytes} {owes : Text → Calls Unit → Prop}

theorem WrittenBy.step (written : WrittenBy capacity owes labels s key bytes)
    (keeps : ∀ j cookie fits p', s'.task j = some ⟨.put cookie fits, p'⟩ →
      keyFor (CookieKey.of cookie) = key → owes key p' ∨
        ∃ p, s.task j = some ⟨.put cookie fits, p⟩ ∧ (owes key p → owes key p')) :
    WrittenBy capacity owes (labels ++ [l]) s' key bytes := by
  obtain ⟨n, i, cookie, fits, value, taken, called, same, value_, others⟩ := written
  have inside := System.lt_of_callAt called
  refine ⟨n, i, cookie, fits, value, ?_, ?_, same, value_, ?_⟩
  · rw [List.getElem?_append_left inside, taken]
  · rw [System.callAt_append inside, called]
  · intro j cookie' fits' p' other there keys
    rcases keeps j cookie' fits' p' there keys with still | ⟨p, before, keeps⟩
    · exact .inr still
    · rcases others j cookie' fits' p other before keys with ⟨m, earlier, taken'⟩ | owed
      · refine .inl ⟨m, earlier, ?_⟩
        rw [List.getElem?_append_left (earlier.trans inside), taken']
      · exact .inr (keeps owed)

/-- What holds between the steps of orderly requests: every value that stands is of a put that no
put of its key outlasts, and so is every value that a touch is to write again. -/
structure Traced (capacity : Capacity) (labels : List RequestLabel) (s : Requests) : Prop where
  slots : ∀ key, ∀ slot ∈ slotsOf s key,
    WrittenBy capacity removesLater labels s key slot.value
  held : ∀ j keys now p, s.task j = some ⟨.touch keys now, p⟩ → ∀ key value,
    .put key value ∈ p.ahead → WrittenBy capacity writesLater labels s key value

variable {fits : cookie.SeqFits}

/-- The stages of a put of the key under way. -/
theorem Cleared.put_stage (h : Cleared capacity s) {j : Nat} {p : Calls Unit}
    (there : s.task j = some ⟨.put cookie fits, p⟩) :
    ∃ value, (p.Closes NoWrite (replaces (keyFor (CookieKey.of cookie)) value)) ∨
      p.ahead = [.put (keyFor (CookieKey.of cookie)) value] ∨ p.ahead = [] := by
  obtain ⟨value, encoded⟩ := Option.isSome_iff_exists.mp (h.encodes j cookie fits p there)
  refine ⟨value, ?_⟩
  rcases left_of_residual h.residual there value encoded with closes | straight | straight
  · exact .inl closes
  · exact .inr (.inl straight.ahead_eq)
  · exact .inr (.inr straight.ahead_eq)

theorem Cleared.body_owes (h : Cleared capacity s) {j : Nat}
    (there : s.task j = some ⟨.put cookie fits, (requests capacity).body (.put cookie fits)⟩) :
    removesLater (keyFor (CookieKey.of cookie)) ((requests capacity).body (.put cookie fits)) ∧
      writesLater (keyFor (CookieKey.of cookie))
        ((requests capacity).body (.put cookie fits)) := by
  obtain ⟨value, encoded⟩ := Option.isSome_iff_exists.mp (h.encodes j cookie fits _ there)
  have both := closes_ahead (put_closes capacity encoded)
  exact ⟨both.1, value, both.2⟩

/-- A step of a put keeps what it owes, unless it is that call. -/
theorem Cleared.put_owes (h : Cleared capacity s) {j : Nat} {op : Call}
    {next : op.Answer → Calls Unit}
    (there : s.task j = some ⟨.put cookie fits, .call op next⟩) (r : op.Answer) :
    let key := keyFor (CookieKey.of cookie)
    (op ≠ .remove key → removesLater key (.call op next) → removesLater key (next r)) ∧
      ((∀ value, op ≠ .put key value) → writesLater key (.call op next) →
        writesLater key (next r)) := by
  intro key
  obtain ⟨value, encoded⟩ := Option.isSome_iff_exists.mp (h.encodes j cookie fits _ there)
  rcases left_of_residual h.residual there value encoded with (straight | ⟨-, later⟩) |
      straight | straight
  · obtain ⟨rfl, rest⟩ := straight
    refine ⟨fun other => absurd rfl other, fun _ _ => ⟨value, ?_⟩⟩
    rw [(rest r).ahead_eq]
    exact List.mem_singleton_self _
  · have both := closes_ahead (later r)
    exact ⟨fun _ _ => both.1, fun _ _ => ⟨value, both.2⟩⟩
  · obtain ⟨rfl, rest⟩ := straight
    refine ⟨fun _ owed => ?_, fun other => absurd rfl (other value)⟩
    simp only [removesLater, Program.ahead, (rest default).ahead_eq, List.mem_singleton] at owed
    cases owed
  · exact straight.elim

/-- What a touch is to write after its scan are values that it found. -/
theorem held_of_scan {keys : List CookieKey} {now : SystemTime} {found : List (Text × Bytes)}
    {value : Bytes} (member : .put key value ∈
      (runSteps (touchSteps (keys.map keyFor) now found)).ahead) :
    ∃ old c, (key, old) ∈ found ∧ decode old = some c ∧
      encode { c with lastAccess := now } = some value := by
  rw [(runSteps_straight _).ahead_eq, touchSteps_eq, writes, List.map_flatMap,
    List.mem_flatMap] at member
  obtain ⟨e, written, call⟩ := member
  simp only [callOf, List.map_cons, List.map_nil, List.mem_cons, List.not_mem_nil, or_false,
    reduceCtorEq, false_or, Call.put.injEq] at call
  obtain ⟨rfl, rfl⟩ := call
  obtain ⟨old, inside, rewrite_⟩ := List.mem_filterMap.mp written
  obtain ⟨-, same, c, read, encoded⟩ := rewriteOf_eq_some.mp rewrite_
  exact ⟨old.2, c, by rw [same]; exact inside, read, encoded⟩

/-- A cookie that a touch writes again is read back as it was, but for its last access. -/
theorem decode_touched (fits : cookie.SeqFits) {now : SystemTime}
    {value : Bytes} (encoded : encode { cookie.kept with lastAccess := now } = some value) :
    decode value = some { cookie.kept with lastAccess := Hsts.keptExpiry now } := by
  rw [decode_encode (c := { cookie.kept with lastAccess := now }) fits encoded]
  simp [Cookie.kept, Hsts.keptExpiry_idem, Function.comp_def]

theorem Traced.start_step {i : Nat} {about : Request} (traced : Traced capacity labels s)
    (h' : Cleared capacity s') (free : s.task i = none)
    (stepped : s' = s.put i ⟨about, (requests capacity).body about⟩ s.shared) :
    Traced capacity (labels ++ [l]) s' := by
  subst stepped
  have keeps : ∀ {owes : Text → Calls Unit → Prop} {key},
      (∀ cookie fits, about = .put cookie fits → keyFor (CookieKey.of cookie) = key →
        owes key ((requests capacity).body about)) →
      ∀ j cookie fits p', (s.put i ⟨about, (requests capacity).body about⟩ s.shared).task j =
          some ⟨.put cookie fits, p'⟩ → keyFor (CookieKey.of cookie) = key → owes key p' ∨
        ∃ p, s.task j = some ⟨.put cookie fits, p⟩ ∧ (owes key p → owes key p') := by
    intro owes key own j cookie fits p' there keys
    rw [Pool.put_task_eq_some] at there
    rcases there with ⟨rfl, there⟩ | ⟨same, there⟩
    · cases there
      exact .inl (own cookie fits rfl keys)
    · exact .inr ⟨p', there, id⟩
  have own : ∀ cookie fits, about = .put cookie fits →
      removesLater (keyFor (CookieKey.of cookie)) ((requests capacity).body about) ∧
        writesLater (keyFor (CookieKey.of cookie)) ((requests capacity).body about) := by
    rintro cookie fits rfl
    exact h'.body_owes (Pool.put_task_self ..)
  refine ⟨fun key slot member => ?_, fun j keys now p there key value member => ?_⟩
  · exact (traced.slots key slot member).step
      (keeps fun cookie fits same keys => keys ▸ (own cookie fits same).1)
  · by_cases same : j = i
    · subst same
      rw [Pool.put_task_self] at there
      cases there
      -- before its scan a touch has nothing to write
      simp only [requests, Request.body, KvStore.touch] at member
      split at member
      · cases member
      · simp [Program.ahead, Program.perform, touchSteps, runSteps, default] at member
    · rw [Pool.put_task_of_ne s same] at there
      exact (traced.held j keys now p there key value member).step
        (keeps fun cookie fits same keys => keys ▸ (own cookie fits same).2)

theorem Cleared.owes_write (h : Cleared capacity s) {j : Nat} {p : Calls Unit}
    (there : s.task j = some ⟨.put cookie fits, p⟩)
    (removes : removesLater (keyFor (CookieKey.of cookie)) p) :
    writesLater (keyFor (CookieKey.of cookie)) p := by
  obtain ⟨value, closes | last | done_⟩ := h.put_stage there
  · exact ⟨value, (closes_ahead closes).2⟩
  · simp [removesLater, last] at removes
  · simp [removesLater, done_] at removes

/-- A put that still owes its write and is not about to make it still owes its removal. -/
theorem Cleared.owes_removal (h : Cleared capacity s) {j : Nat} {p : Calls Unit}
    (there : s.task j = some ⟨.put cookie fits, p⟩)
    (writes : writesLater (keyFor (CookieKey.of cookie)) p)
    (notNext : ¬ writesNext (keyFor (CookieKey.of cookie)) p) :
    removesLater (keyFor (CookieKey.of cookie)) p := by
  obtain ⟨value, closes | last | done_⟩ := h.put_stage there
  · exact (closes_ahead closes).1
  · exact absurd ⟨value, by simp [last]⟩ notNext
  · simp [writesLater, done_] at writes

/-- The write of a put is of its own cookie under its own key. -/
theorem Cleared.put_writes (h : Cleared capacity s) {i : Nat} {value : Bytes}
    {next : Unit → Calls Unit}
    (there : s.task i = some ⟨.put cookie fits, .call (.put key value) next⟩) :
    keyFor (CookieKey.of cookie) = key ∧ decode value = some cookie.kept := by
  obtain ⟨bytes, encoded⟩ := Option.isSome_iff_exists.mp (h.encodes i cookie fits _ there)
  rcases left_of_residual h.residual there bytes encoded with (straight | ⟨noWrite, -⟩) |
      straight | straight
  · cases straight.1
  · exact absurd rfl (noWrite key value)
  · cases straight.1
    exact ⟨rfl, decode_encode fits encoded⟩
  · exact straight.elim

/-- A touch has no more to write after a call of its own, unless that was its scan. -/
theorem Cleared.touch_ahead (h : Cleared capacity s) {i : Nat} {keys : List CookieKey}
    {now : SystemTime} {op : Call} {next : op.Answer → Calls Unit}
    (there : s.task i = some ⟨.touch keys now, .call op next⟩) (r : op.Answer) {call : Call}
    (member : call ∈ (next r).ahead) :
    (∃ found : List (Text × Bytes), op = .scanMany (stemsOf keys) ∧ HEq r found ∧
        next r = runSteps (touchSteps (keys.map keyFor) now found)) ∨
      call ∈ (Program.call op next : Calls Unit).ahead := by
  rcases left_of_residual h.residual there with same | ⟨entries, straight⟩ |
      ⟨e, entries, straight⟩
  · cases same
    exact .inl ⟨r, rfl, HEq.rfl, rfl⟩
  · cases entries with
    | nil => exact straight.elim
    | cons e entries =>
        rw [writes_cons] at straight
        obtain ⟨rfl, rest⟩ := straight
        rw [(rest r).ahead_eq] at member
        refine .inr ?_
        rw [Program.ahead, (rest default).ahead_eq]
        exact List.mem_cons_of_mem _ member
  · obtain ⟨rfl, rest⟩ := straight
    rw [(rest r).ahead_eq] at member
    refine .inr ?_
    rw [Program.ahead, (rest default).ahead_eq]
    exact List.mem_cons_of_mem _ member

theorem Traced.advance_step {i : Nat} (traced : Traced capacity labels s)
    (h : Cleared capacity s) (orderly : Orderly s (.advance i))
    (reached : (requests capacity).run Requests.start labels = some s)
    (stepped : (requests capacity).step s (.advance i) = some s') :
    Traced capacity (labels ++ [.advance i]) s' := by
  obtain ⟨about, op, next, here, rfl⟩ := System.step_advance stepped
  have nextOp : s.nextOp (.advance i) = some (about, op) := by simp [Pool.nextOp, here]
  have keeps : ∀ {owes : Text → Calls Unit → Prop} {key},
      (∀ cookie fits, about = .put cookie fits → keyFor (CookieKey.of cookie) = key →
        owes key (.call op next) → owes key (next ((requests capacity).handle op s.shared).1)) →
      ∀ j cookie fits p', (s.put i ⟨about, next ((requests capacity).handle op s.shared).1⟩
          ((requests capacity).handle op s.shared).2).task j = some ⟨.put cookie fits, p'⟩ →
        keyFor (CookieKey.of cookie) = key → owes key p' ∨
          ∃ p, s.task j = some ⟨.put cookie fits, p⟩ ∧ (owes key p → owes key p') := by
    intro owes key own j cookie fits p' there keys
    rw [Pool.put_task_eq_some] at there
    rcases there with ⟨rfl, there⟩ | ⟨same, there⟩
    · cases there
      exact .inr ⟨_, here, own cookie fits rfl keys⟩
    · exact .inr ⟨p', there, id⟩
  refine ⟨fun key slot member => ?_, fun j keys now p there key value member => ?_⟩
  · change slot ∈ (Call.handle ns op s.shared).2.memory.slots ns key at member
    rcases slots_handle op ns key s.shared with ⟨still, other, -⟩ | ⟨empty, -⟩ | ⟨v, rfl, fresh⟩
    · rw [still] at member
      refine (traced.slots key slot member).step (keeps ?_)
      rintro cookie fits rfl rfl
      exact (h.put_owes here _).1 other
    · rw [empty] at member
      cases member
    · rw [fresh (h.cleared i about key v next here), List.mem_singleton] at member
      subst member
      cases about with
      | put cookie fits =>
          obtain ⟨same, read⟩ := h.put_writes here
          refine ⟨labels.length, i, cookie, fits, v, List.getElem?_concat_length, ?_, same,
            ⟨_, read⟩, ?_⟩
          · rw [System.callAt_concat reached, nextOp]
          · intro j cookie' fits' p other there keys
            rw [Pool.put_task_of_ne s other] at there
            rcases System.body_or_advanced rfl reached there with rfl | ⟨m, taken⟩
            · exact .inr (keys ▸ (h.body_owes there).1)
            · have inside := (List.getElem?_eq_some_iff.mp taken).1
              exact .inl ⟨m, inside, by rw [List.getElem?_append_left inside, taken]⟩
      | touch keys now =>
          have weak := traced.held i keys now _ here key v (by simp [Program.ahead])
          obtain ⟨n, k, cookie, fits, value, taken, called, same, read, others⟩ := weak
          have strong : WrittenBy capacity removesLater labels s key v := by
            refine ⟨n, k, cookie, fits, value, taken, called, same, read, ?_⟩
            intro j cookie' fits' p other there keys'
            refine (others j cookie' fits' p other there keys').imp_right fun owed => ?_
            subst keys'
            refine h.owes_removal there owed fun next_ => ?_
            have apart : j ≠ i := by
              rintro rfl
              rw [here] at there
              cases there
            exact orderly (.touch keys now, .put _ v) nextOp _ v rfl j _ p apart there
              (.inl next_)
          refine strong.step (keeps ?_)
          intro cookie' fits' same'
          cases same'
  · by_cases same : j = i
    · subst same
      rw [Pool.put_task_self] at there
      cases there
      have noPut : ∀ cookie fits, Request.touch keys now ≠ .put cookie fits := by
        intro cookie fits same
        cases same
      rcases h.touch_ahead here _ member with ⟨found, rfl, answer, left⟩ | earlier
      · rw [left] at member
        obtain ⟨old, c, inside, read, encoded⟩ := held_of_scan member
        have live : (key, old) ∈ values s.shared := by
          have answered : (Call.handle ns (.scanMany (stemsOf keys)) s.shared).1 = found :=
            eq_of_heq answer
          rw [scanMany_eq] at answered
          rw [← answered] at inside
          exact List.mem_of_mem_filter inside
        obtain ⟨slot, standing, -, rfl⟩ := MemoryStore.mem_live.mp live
        obtain ⟨n, k, cookie, fits, value', taken, called, same, ⟨t, readBack⟩, others⟩ :=
          traced.slots key slot standing
        have whole : c = { cookie.kept with lastAccess := t } :=
          Option.some.inj (read.symm.trans readBack)
        subst whole
        have weak : WrittenBy capacity writesLater labels s key value :=
          ⟨n, k, cookie, fits, value', taken, called, same, ⟨_, decode_touched fits encoded⟩,
            fun j' cookie' fits' p other there keys' =>
              (others j' cookie' fits' p other there keys').imp_right fun owed => by
                subst keys'
                exact h.owes_write there owed⟩
        exact weak.step (keeps fun cookie' fits' same' => absurd same' (noPut cookie' fits'))
      · exact (traced.held j keys now _ here key value earlier).step
          (keeps fun cookie' fits' same' => absurd same' (noPut cookie' fits'))
    · rw [Pool.put_task_of_ne s same] at there
      refine (traced.held j keys now p there key value member).step (keeps ?_)
      rintro cookie fits rfl rfl
      refine (h.put_owes here _).2 fun value' writes => ?_
      -- the touch has read the key and is to write it again
      exact orderly (.put cookie fits, op) nextOp _ value' writes j _ p same there
        (.inr ⟨rfl, rfl, value, member⟩)

theorem traced_of_orderly
    (orderly : (requests capacity).Always Orderly Requests.start labels)
    (reached : (requests capacity).run Requests.start labels = some s) :
    Traced capacity labels s := by
  refine System.run_induction (motive := fun labels s =>
    (requests capacity).Always Orderly Requests.start labels → Traced capacity labels s)
    ?_ ?_ orderly reached orderly
  · refine fun _ => ⟨?_, ?_⟩
    · intro key slot member
      cases member
    · intro j keys now p there
      cases there
  · intro labels s l s' reached ok ih stepped always
    have h := cleared_of_orderly always.append.1 reached
    have traced := ih always.append.1
    cases l with
    | start i about =>
        obtain ⟨free, shared, entered, same⟩ := System.step_start stepped
        cases entered
        exact traced.start_step (h.step ok stepped) free same
    | advance i => exact traced.advance_step h ok reached stepped

/-- A run of one put is orderly. -/
theorem orderly_alone (i : Nat)
    (encodes : (encode cookie).isSome) (n : Nat) :
    (requests capacity).Always Orderly Requests.start
      (.start i (.put cookie fits) :: List.replicate n (.advance i)) := by
  refine ⟨encodes, fun s' stepped => System.always_advances ?_ ?_ n⟩
  · intro s nobody c next key value writes j about left other there
    rw [nobody j other] at there
    cases there
  · obtain ⟨free, shared, -, rfl⟩ := System.step_start stepped
    intro j other
    rw [Pool.put_task_of_ne _ other]
    rfl

/-- In a run whose writes come between no two steps of another request, each key ends with one
value at most, of a put that no other put of the key followed entirely. -/
theorem orderly_run_oneEach_cookie (capacity : Capacity) (labels : List RequestLabel)
    (orderly : (requests capacity).Always Orderly Requests.start labels) :
    OneEach capacity labels := by
  intro s reached finished key
  refine ⟨(cleared_of_orderly orderly reached).atMostOne key, fun slot member => ?_⟩
  obtain ⟨n, i, cookie, fits, value, taken, called, same, read, others⟩ :=
    (traced_of_orderly orderly reached).slots key slot member
  refine ⟨n, i, cookie, fits, value, taken, called, same, read, ?_⟩
  intro j cookie' fits' other named keys
  obtain ⟨⟨about, p⟩, there, rfl⟩ := Option.map_eq_some_iff.mp named
  rcases others j cookie' fits' p other there keys with earlier | owes
  · exact earlier
  · obtain ⟨a, ended⟩ := Option.isSome_iff_exists.mp (finished j _ there)
    have ended : p = .done a := Program.result_eq_some.mp ended
    subst ended
    cases owes

/-- A session cookie `a` of `com` with a value. -/
def valued (value : String) : Cookie := { sessionCookie "a" "com" 0 with value := value.toList }

def valuedKey : Text := keyFor (CookieKey.of (valued ""))

theorem orderly_run_oneEach_cookie_put :
    OneEach ⟨3000, 50⟩ (.start 0 (.put (valued "1") (by decide)) ::
      List.replicate 4 (.advance 0)) :=
  orderly_run_oneEach_cookie _ _ (orderly_alone 0 (by decide +kernel) 4)

/-- Two puts of one cookie: each has removed the key before either writes. -/
def twoPuts : List RequestLabel :=
  [.start 0 (.put (valued "1") (by decide)), .start 1 (.put (valued "2") (by decide)),
    .advance 0, .advance 0, .advance 0, .advance 1, .advance 1, .advance 1, .advance 0, .advance 1]

/-- A put between a touch's scan and what the touch writes again. -/
def staleTouch : List RequestLabel :=
  [.start 0 (.put (valued "1") (by decide)), .advance 0, .advance 0, .advance 0, .advance 0,
    .start 1 (.touch [CookieKey.of (valued "1")] .unixEpoch), .advance 1,
    .start 2 (.put (valued "2") (by decide)), .advance 2, .advance 2, .advance 2, .advance 2,
    .advance 1, .advance 1]

/-- The cookie's value where the call at a position is the write of a put. -/
def putAt (labels : List RequestLabel) (n : Nat) : Option Text :=
  match (requests ⟨3000, 50⟩).callAt Requests.start labels n with
  | some (.put cookie _, .put _ _) => some cookie.value
  | _ => none

theorem two_puts_leave_two_stale_touch_undoes_put :
    ¬ OneEach ⟨3000, 50⟩ twoPuts ∧ ¬ OneEach ⟨3000, 50⟩ staleTouch := by
  constructor
  · intro one
    have reached : (requests ⟨3000, 50⟩).run Requests.start twoPuts =
        some ((requests ⟨3000, 50⟩).after Requests.start twoPuts) :=
      System.run_eq_after (by decide +kernel)
    have ended : ∀ i < 2, ∀ task ∈ ((requests ⟨3000, 50⟩).after Requests.start twoPuts).task i,
        task.rest.result.isSome := by decide +kernel
    have finished : ((requests ⟨3000, 50⟩).after Requests.start twoPuts).Finished := by
      intro i task there
      by_cases started : i < 2
      · exact ended i started task there
      · rw [System.task_none rfl (by simp [twoPuts]; omega) reached] at there
        cases there
    have few := (one _ reached finished valuedKey).1
    revert few
    decide +kernel
  · intro one
    have reached : (requests ⟨3000, 50⟩).run Requests.start staleTouch =
        some ((requests ⟨3000, 50⟩).after Requests.start staleTouch) :=
      System.run_eq_after (by decide +kernel)
    have ended : ∀ i < 3, ∀ task ∈ ((requests ⟨3000, 50⟩).after Requests.start staleTouch).task i,
        task.rest.result.isSome := by decide +kernel
    have finished : ((requests ⟨3000, 50⟩).after Requests.start staleTouch).Finished := by
      intro i task there
      by_cases started : i < 3
      · exact ended i started task there
      · rw [System.task_none rfl (by simp [staleTouch]; omega) reached] at there
        cases there
    have values : (slotsOf ((requests ⟨3000, 50⟩).after Requests.start staleTouch) valuedKey).map
        (fun slot => (decode slot.value).map Cookie.value) = [some "1".toList] := by
      decide +kernel
    obtain ⟨slot, member, first⟩ : ∃ slot ∈ slotsOf ((requests ⟨3000, 50⟩).after Requests.start
        staleTouch) valuedKey, (decode slot.value).map Cookie.value = some "1".toList := by
      refine List.mem_map.mp ?_
      rw [values]
      exact List.mem_singleton_self _
    obtain ⟨n, i, cookie, fits, value, taken, called, same, ⟨t, read⟩, others⟩ :=
      (one _ reached finished valuedKey).2 slot member
    rw [read, Option.map_some, Option.some.injEq] at first
    have wrote : putAt staleTouch n = some "1".toList := by
      rw [putAt, called]
      exact congrArg some first
    have bound := System.lt_of_callAt called
    have position : n = 4 :=
      (by decide +kernel : ∀ n < 14, putAt staleTouch n = some "1".toList → n = 4) n bound wrote
    subst position
    have writer : i = 0 := (Label.advance.inj (Option.some.inj taken)).symm
    subst writer
    obtain ⟨m, earlier, later⟩ := others 2 (valued "2") (by decide) (by decide) rfl
      (by decide +kernel)
    interval_cases m <;> cases later

end Concurrent
end HClient.Cookies.KvStore
