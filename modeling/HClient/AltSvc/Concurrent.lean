import HClient.Effect.History
import HClient.AltSvc.History

/-!
# Calls on one store under way together

Any number of puts, removals, network changes and lookups over one byte store, each call on it
a step of its own. A put removes from both namespaces before it writes, and a lookup removes
what it has read lapsed, so that a write between two such steps of another task is where an
origin comes to have two values or loses the one it should keep.
-/
namespace HClient.AltSvc

open Effect Kv

inductive Request where
  | put (origin : Origin) (entry : Entry)
  | remove (origin : Origin)
  | retainPersistent
  | lookup (origin : Origin) (now : SystemTime)
  deriving DecidableEq

def Request.origin : Request → Option Origin
  | .put origin _ => some origin
  | .remove origin => some origin
  | .retainPersistent => none
  | .lookup origin _ => some origin

def Request.body : Request → StoreProgram (Option Bool)
  | .put origin entry => (KvStore.put origin entry).bind fun _ => .done none
  | .remove origin => (KvStore.remove origin).bind fun _ => .done none
  | .retainPersistent => KvStore.retainPersistent.bind fun _ => .done none
  | .lookup origin now => (advertisesH3 origin now).bind fun answer => .done (some answer)

/-- Requests over one store. -/
def requests : System Request KvCall KvCall.Answer (Option Bool) Memory where
  body := Request.body
  enter _ kv := some kv
  handle := KvCall.handle

abbrev Requests := Pool Nat Request KvCall KvCall.Answer (Option Bool) Memory
abbrev RequestLabel := Label Nat Request

def Requests.start : Requests := ⟨MemoryStore.new, fun _ => none⟩

/-! ## What is claimed of a run -/

def KvCall.Writes (space : Space) (key : Text) : KvCall → Prop
  | .put space' key' _ _ => space' = space ∧ key' = key
  | _ => False

def KvCall.Wipes (space : Space) (key : Text) : KvCall → Prop
  | .remove space' key' => space' = space ∧ key' = key
  | .clear space' => space' = space
  | _ => False

/-- The value written at a position has not been removed since. -/
def Stands (labels : List RequestLabel) (n : Nat) (space : Space) (key : Text) : Prop :=
  (∃ c ∈ requests.callAt Requests.start labels n, c.2.Writes space key) ∧
    ∀ m, n < m → ∀ c ∈ requests.callAt Requests.start labels m, ¬ c.2.Wipes space key

/-- Once every request has completed, there is one value at most under a key, and that of an
origin of the run is from a put of that origin all of whose rivals had made a call before it was
written. -/
def OneEach (labels : List RequestLabel) : Prop :=
  ∀ s, requests.run Requests.start labels = some s → s.Finished →
    (∀ o : Origin, (s.shared.slots Space.volatile.ns (keyFor o)).length +
        (s.shared.slots Space.persistent.ns (keyFor o)).length ≤ 1) ∧
      ∀ k about, s.aboutOf k = some about → ∀ o ∈ about.origin,
        ∀ space : Space, ∀ slot ∈ s.shared.slots space.ns (keyFor o), ∃ n i e,
          labels[n]? = some (.advance i) ∧
          requests.callAt Requests.start labels n =
            some (.put o e, .put space (keyFor o) (encode e) e.expiresAt) ∧
          slot = slotOf e ∧
          ∀ j e', j ≠ i → s.aboutOf j = some (.put o e') →
            ∃ m, m < n ∧ labels[m]? = some (.advance j)

/-- A lookup's eviction removes no value that was put after the one its last read found. -/
def EvictsNoFresher (labels : List RequestLabel) : Prop :=
  ∀ s, requests.run Requests.start labels = some s → ∀ n m j o now read space,
    n < m → labels[n]? = some (.advance j) → labels[m]? = some (.advance j) →
    requests.callAt Requests.start labels n =
      some (.lookup o now, .getMany read [keyFor o]) →
    requests.callAt Requests.start labels m = some (.lookup o now, .remove space (keyFor o)) →
    (∀ n', n < n' → n' < m → labels[n']? = some (.advance j) → ∀ read' keys,
      requests.callAt Requests.start labels n' ≠
        some (.lookup o now, .getMany read' keys)) →
    ∀ a b, Stands (labels.take n) a read (keyFor o) →
      Stands (labels.take m) b space (keyFor o) → b ≤ a

/-! ## The condition -/

instance : (op : KvCall) → Inhabited op.Answer
  | .getMany _ _ => ⟨([] : List (List Bytes))⟩
  | .put _ _ _ _ => ⟨()⟩
  | .remove _ _ => ⟨()⟩
  | .clear _ => ⟨()⟩

/-- A write under the key would come between two steps of the task: of a put, after it has
removed from that namespace and before it writes; of a lookup, after it has read a lapsed value
and before it removes from that namespace. -/
def Exposed (space : Space) (key : Text) (about : Request) (left : StoreProgram (Option Bool)) :
    Prop :=
  match about with
  | .put o _ => keyFor o = key ∧ left.ahead ≠ [] ∧ .remove space key ∉ left.ahead
  | .lookup _ _ => .remove space key ∈ left.ahead
  | _ => False

/-- The condition on a step: two origins of the run have two keys, and a write comes between no
two steps of another task. -/
def Orderly (s : Requests) : RequestLabel → Prop
  | .start _ about => ∀ o ∈ about.origin, ∀ j task, s.task j = some task →
      ∀ o' ∈ task.about.origin, keyFor o' = keyFor o → o' = o
  | .advance i => ∀ c ∈ s.nextOp (.advance i), ∀ space key, c.2.Writes space key →
      ∀ j about left, j ≠ i → s.task j = some ⟨about, left⟩ → ¬ Exposed space key about left

/-! ## What the tasks do -/

def putCalls (o : Origin) (e : Entry) : List KvCall :=
  [.remove e.space.other (keyFor o), .remove e.space (keyFor o),
    .put e.space (keyFor o) (encode e) e.expiresAt]

def removeCalls (o : Origin) : List KvCall :=
  [.remove .volatile (keyFor o), .remove .persistent (keyFor o)]

theorem put_straight (o : Origin) (e : Entry) :
    Program.Straight (putCalls o e) (Request.put o e).body :=
  ⟨rfl, fun _ => ⟨rfl, fun _ => ⟨rfl, fun _ => trivial⟩⟩⟩

theorem remove_straight (o : Origin) :
    Program.Straight (removeCalls o) (Request.remove o).body :=
  ⟨rfl, fun _ => ⟨rfl, fun _ => trivial⟩⟩

theorem retain_straight :
    Program.Straight [.clear .volatile] Request.retainPersistent.body := ⟨rfl, fun _ => trivial⟩

/-- A lookup once its reads are over: it answers, or removes first. -/
def decided (o : Origin) (now : SystemTime) : Option Entry → StoreProgram (Option Bool)
  | some e =>
      if now < e.expiresAt then .done (some true)
      else (KvStore.remove o).bind fun _ => .done (some false)
  | none => .done (some false)

theorem lookup_eq (o : Origin) (now : SystemTime) : (Request.lookup o now).body =
    .call (.getMany .persistent [keyFor o]) fun found =>
      match found.flatten.findSome? fun b => decode b true with
      | some e => decided o now (some e)
      | none => .call (.getMany .volatile [keyFor o]) fun found =>
          decided o now (found.flatten.findSome? fun b => decode b false) := by
  simp only [Request.body, advertisesH3, KvStore.get, Program.bind_eq, Program.perform_bind,
    Program.call_bind, Program.call.injEq, heq_eq_eq, true_and]
  funext found
  cases found.flatten.findSome? fun b => decode b true with
  | some e =>
      by_cases live : now < e.expiresAt <;> simp [decided, live]
      rfl
  | none =>
      simp only [Program.call_bind, Program.call.injEq, heq_eq_eq, true_and]
      funext found
      cases found.flatten.findSome? fun b => decode b false with
      | none => rfl
      | some e =>
          by_cases live : now < e.expiresAt <;> simp [decided, live]
          rfl

theorem decided_straight (o : Origin) (now : SystemTime) (found : Option Entry) :
    ∃ ops, ops <:+ removeCalls o ∧ (decided o now found).Straight ops := by
  cases found with
  | none => exact ⟨[], List.nil_suffix, trivial⟩
  | some e =>
      by_cases live : now < e.expiresAt
      · exact ⟨[], List.nil_suffix, by simp [decided, live, Program.Straight]⟩
      · refine ⟨removeCalls o, List.suffix_refl _, ?_⟩
        rw [decided, if_neg live]
        exact ⟨rfl, fun _ => ⟨rfl, fun _ => trivial⟩⟩

/-- What is left of a request: straight on for all but a lookup that still reads. -/
def Left : Request → StoreProgram (Option Bool) → Prop
  | .put o e, p => ∃ ops, ops <:+ putCalls o e ∧ p.Straight ops
  | .remove o, p => ∃ ops, ops <:+ removeCalls o ∧ p.Straight ops
  | .retainPersistent, p => ∃ ops, ops <:+ [.clear .volatile] ∧ p.Straight ops
  | .lookup o _, p =>
      (∃ read next, p = .call (.getMany read [keyFor o]) next) ∨
        ∃ ops, ops <:+ removeCalls o ∧ p.Straight ops

theorem straight_left {p q : StoreProgram (Option Bool)}
    {t : List (Program.Event KvCall KvCall.Answer)}
    {calls : List KvCall} (suffix : ∃ ops, ops <:+ calls ∧ p.Straight ops)
    (steps : p.Steps t q) : ∃ ops, ops <:+ calls ∧ q.Straight ops := by
  obtain ⟨ops, within, straight⟩ := suffix
  obtain ⟨ops', within', left⟩ := straight.of_steps steps
  exact ⟨ops', within'.trans within, left⟩

variable {p : StoreProgram (Option Bool)}

theorem left_of_steps {about : Request}
    {t : List (Program.Event KvCall KvCall.Answer)}
    (steps : about.body.Steps t p) : Left about p := by
  cases about with
  | put o e => exact straight_left ⟨_, List.suffix_refl _, put_straight o e⟩ steps
  | remove o => exact straight_left ⟨_, List.suffix_refl _, remove_straight o⟩ steps
  | retainPersistent => exact straight_left ⟨_, List.suffix_refl _, retain_straight⟩ steps
  | lookup o now =>
      rw [lookup_eq] at steps
      cases steps with
      | refl => exact .inl ⟨_, _, rfl⟩
      | step found rest =>
          simp only at rest
          cases first : found.flatten.findSome? fun b => decode b true with
          | some e =>
              rw [first] at rest
              exact .inr (straight_left (decided_straight o now _) rest)
          | none =>
              rw [first] at rest
              cases rest with
              | refl => exact .inl ⟨_, _, rfl⟩
              | step found' rest => exact .inr (straight_left (decided_straight o now _) rest)

theorem left_of_residual {s : Requests} (residual : requests.Residual s) {i : Nat}
    {about : Request} (there : s.task i = some ⟨about, p⟩) :
    Left about p := by
  obtain ⟨t, steps⟩ := residual i _ there
  exact left_of_steps steps

/-- The stages of a put. -/
theorem put_stage {o : Origin} {e : Entry}
    (left : Left (.put o e) p) :
    p.Straight (putCalls o e) ∨ p.Straight ((putCalls o e).drop 1) ∨
      p.Straight [.put e.space (keyFor o) (encode e) e.expiresAt] ∨ p.Straight [] := by
  obtain ⟨ops, suffix, straight⟩ := left
  simp only [putCalls, List.suffix_cons_iff, List.suffix_nil] at suffix
  rcases suffix with rfl | rfl | rfl | rfl
  · exact .inl straight
  · exact .inr (.inl straight)
  · exact .inr (.inr (.inl straight))
  · exact .inr (.inr (.inr straight))

/-- Only puts write, each its own entry and last. -/
theorem writer {about : Request} {space : Space} {key : Text} {value : Bytes}
    {expires : SystemTime} {next : Unit → StoreProgram (Option Bool)}
    (left : Left about (.call (.put space key value expires) next)) :
    ∃ o e, about = .put o e ∧ space = e.space ∧ key = keyFor o ∧ value = encode e ∧
      expires = e.expiresAt ∧ ∀ r, (next r).ahead = [] := by
  cases about with
  | put o e =>
      rcases put_stage left with h | h | h | h
      · cases h.1
      · cases h.1
      · obtain ⟨same, rest⟩ := h
        cases same
        exact ⟨o, e, rfl, rfl, rfl, rfl, rfl, fun r => (rest r).ahead_eq⟩
      · exact h.elim
  | remove o =>
      obtain ⟨ops, suffix, straight⟩ := left
      simp only [removeCalls, List.suffix_cons_iff, List.suffix_nil] at suffix
      rcases suffix with rfl | rfl | rfl
      · cases straight.1
      · cases straight.1
      · exact straight.elim
  | retainPersistent =>
      obtain ⟨ops, suffix, straight⟩ := left
      simp only [List.suffix_cons_iff, List.suffix_nil] at suffix
      rcases suffix with rfl | rfl
      · cases straight.1
      · exact straight.elim
  | lookup o now =>
      rcases left with ⟨read, next', same⟩ | ⟨ops, suffix, straight⟩
      · cases same
      · simp only [removeCalls, List.suffix_cons_iff, List.suffix_nil] at suffix
        rcases suffix with rfl | rfl | rfl
        · cases straight.1
        · cases straight.1
        · exact straight.elim

/-! ## What one call does to the slots -/

/-- A call leaves a slot list alone, empties it or writes to it. -/
theorem slots_handle (op : KvCall) (kv : Memory) (space : Space) (key : Text) :
    ((KvCall.handle op kv).2.slots space.ns key = kv.slots space.ns key ∧
        ¬ op.Writes space key ∧ ¬ op.Wipes space key) ∨
      ((KvCall.handle op kv).2.slots space.ns key = [] ∧ op.Wipes space key) ∨
      ∃ value expires, op = .put space key value expires ∧
        (kv.slots space.ns key = [] →
          (KvCall.handle op kv).2.slots space.ns key = [⟨value, some expires⟩]) := by
  cases op with
  | getMany space' keys => exact .inl ⟨rfl, not_false, not_false⟩
  | put space' key' value expires =>
      by_cases here : space' = space ∧ key' = key
      · obtain ⟨rfl, rfl⟩ := here
        refine .inr (.inr ⟨value, expires, rfl, fun empty => ?_⟩)
        change (kv.put _ _ _ _ _).slots _ _ = _
        rw [slots_put_space _ _ _ _ _ _ _ empty, if_pos ⟨rfl, rfl⟩]
      · refine .inl ⟨?_, here, not_false⟩
        change (kv.put _ _ _ _ _).slots _ _ = _
        by_cases same : space = space'
        · subst same
          rw [MemoryStore.slots_put, if_neg fun keys => here ⟨rfl, keys.symm⟩]
        · rw [MemoryStore.slots_put_other _ fun e => same (ns_inj e)]
  | remove space' key' =>
      have left := slots_remove_space kv space' space key' key
      by_cases here : space' = space ∧ key' = key
      · obtain ⟨rfl, rfl⟩ := here
        exact .inr (.inl ⟨left.trans (if_pos ⟨rfl, rfl⟩), rfl, rfl⟩)
      · rw [if_neg fun same => here ⟨same.1.symm, same.2.symm⟩] at left
        exact .inl ⟨left, not_false, here⟩
  | clear space' =>
      by_cases same : space' = space
      · subst same
        exact .inr (.inl ⟨MemoryStore.slots_clear kv _ _, rfl⟩)
      · exact .inl ⟨MemoryStore.slots_clear_other _ (fun e => same (ns_inj e).symm) _, not_false,
          same⟩

/-! ## The invariant -/

/-- Where a put under way has removed from a namespace, nothing stands under its key there. -/
def Cleared (s : Requests) : Prop :=
  ∀ i o e p, s.task i = some ⟨.put o e, p⟩ → p.ahead ≠ [] → ∀ space,
    .remove space (keyFor o) ∉ p.ahead → s.shared.slots space.ns (keyFor o) = []

def AtMostOne (s : Requests) : Prop :=
  ∀ key, (s.shared.slots Space.volatile.ns key).length +
    (s.shared.slots Space.persistent.ns key).length ≤ 1

structure Kept (s : Requests) : Prop where
  residual : requests.Residual s
  cleared : Cleared s
  atMostOne : AtMostOne s

theorem kept_start : Kept Requests.start := by
  refine ⟨?_, ?_, fun key => Nat.zero_le 1⟩
  · intro i task there
    cases there
  · intro i o e p there
    cases there

/-- What a step of a put leaves of its calls; only its last call is not a removal. -/
theorem put_steps {o : Origin} {e : Entry} {op : KvCall}
    {next : op.Answer → StoreProgram (Option Bool)} (left : Left (.put o e) (.call op next))
    (r : op.Answer) :
    (Program.call op next : StoreProgram (Option Bool)).ahead = op :: (next r).ahead ∧
      ((next r).ahead ≠ [] → ∃ space, op = .remove space (keyFor o)) := by
  rcases put_stage left with h | h | h | h
  · obtain ⟨rfl, rest⟩ := h
    rw [(rest r).ahead_eq, Program.ahead, (rest default).ahead_eq]
    exact ⟨rfl, fun _ => ⟨_, rfl⟩⟩
  · obtain ⟨rfl, rest⟩ := h
    rw [(rest r).ahead_eq, Program.ahead, (rest default).ahead_eq]
    exact ⟨rfl, fun _ => ⟨_, rfl⟩⟩
  · obtain ⟨rfl, rest⟩ := h
    rw [(rest r).ahead_eq, Program.ahead, (rest default).ahead_eq]
    exact ⟨rfl, fun owes => absurd rfl owes⟩
  · exact h.elim

theorem Kept.cleared_step {s s' : Requests} {l : RequestLabel} (kept : Kept s)
    (orderly : Orderly s l) (stepped : requests.step s l = some s') : Cleared s' := by
  intro j o e p there owes space past
  cases l with
  | start i about =>
      obtain ⟨free, shared, entered, rfl⟩ := System.step_start stepped
      cases entered
      rw [Pool.put_task_eq_some] at there
      rcases there with ⟨rfl, there⟩ | ⟨same, there⟩
      · cases there
        have ahead : (requests.body (.put o e)).ahead = putCalls o e := (put_straight o e).ahead_eq
        rw [ahead] at past
        refine absurd ?_ past
        rcases Space.eq_or e.space space with rfl | rfl <;> simp [putCalls]
      · exact kept.cleared j o e p there owes space past
  | advance i =>
      obtain ⟨about, op, next, here, rfl⟩ := System.step_advance stepped
      rw [Pool.put_shared]
      change (KvCall.handle op s.shared).2.slots _ _ = []
      have before : s.shared.slots space.ns (keyFor o) = [] ∨ op.Wipes space (keyFor o) := by
        rw [Pool.put_task_eq_some] at there
        rcases there with ⟨rfl, there⟩ | ⟨same, there⟩
        · simp only [Task.mk.injEq] at there
          obtain ⟨rfl, rfl⟩ := there
          obtain ⟨calls, removes⟩ := put_steps (left_of_residual kept.residual here) _
          obtain ⟨space', rfl⟩ := removes owes
          by_cases own : space' = space
          · exact .inr ⟨own, rfl⟩
          · refine .inl (kept.cleared j o e _ here (by simp [Program.ahead]) space ?_)
            rw [calls, List.mem_cons, not_or]
            exact ⟨fun same => own (KvCall.remove.inj same).1.symm, past⟩
        · exact .inl (kept.cleared j o e p there owes space past)
      rcases slots_handle op s.shared space (keyFor o) with ⟨still, -, unwiped⟩ | ⟨empty, -⟩ |
          ⟨value, expires, rfl, -⟩
      · rw [still]
        exact before.resolve_right unwiped
      · exact empty
      · -- the write would come between two steps of this put
        exfalso
        obtain ⟨o', e', rfl, -, keys, -, -, last⟩ :=
          writer (left_of_residual kept.residual here)
        rw [Pool.put_task_eq_some] at there
        rcases there with ⟨rfl, there⟩ | ⟨same, there⟩
        · simp only [Task.mk.injEq] at there
          exact owes (by rw [← there.2]; exact last _)
        · exact orderly (.put o' e', .put space (keyFor o) value expires)
            (by simp [Pool.nextOp, here]) space (keyFor o) ⟨rfl, rfl⟩ j _ p same there
            ⟨rfl, owes, past⟩

/-- A write finds nothing under its key, in either namespace. -/
theorem Kept.write_finds_nothing {s : Requests} (kept : Kept s) {i : Nat} {about : Request}
    {space : Space} {key : Text} {value : Bytes} {expires : SystemTime}
    {next : Unit → StoreProgram (Option Bool)}
    (here : s.task i = some ⟨about, .call (.put space key value expires) next⟩) (space' : Space) :
    s.shared.slots space'.ns key = [] := by
  obtain ⟨o, e, rfl, -, rfl, -, -, last⟩ := writer (left_of_residual kept.residual here)
  refine kept.cleared i o e _ here (by simp [Program.ahead]) space' ?_
  simp [Program.ahead, last]

theorem Kept.step {s s' : Requests} {l : RequestLabel} (kept : Kept s) (orderly : Orderly s l)
    (stepped : requests.step s l = some s') : Kept s' := by
  refine ⟨System.residual_step kept.residual stepped, kept.cleared_step orderly stepped, ?_⟩
  intro key
  cases l with
  | start i about =>
      obtain ⟨free, shared, entered, rfl⟩ := System.step_start stepped
      cases entered
      exact kept.atMostOne key
  | advance i =>
      obtain ⟨about, op, next, here, rfl⟩ := System.step_advance stepped
      have few := kept.atMostOne key
      have left : ∀ space : Space, (∀ v x, op ≠ .put space key v x) →
          ((KvCall.handle op s.shared).2.slots space.ns key).length ≤
            (s.shared.slots space.ns key).length := by
        intro space other
        rcases slots_handle op s.shared space key with ⟨still, -⟩ | ⟨empty, -⟩ |
            ⟨value, expires, same, -⟩
        · exact (congrArg List.length still).le
        · simp [empty]
        · exact absurd same (other value expires)
      change ((KvCall.handle op s.shared).2.slots _ key).length +
        ((KvCall.handle op s.shared).2.slots _ key).length ≤ 1
      by_cases writes : ∃ space v x, op = .put space key v x
      · obtain ⟨space, v, x, rfl⟩ := writes
        have nothing := kept.write_finds_nothing here
        have other := left space.other fun v' x' same =>
          Space.other_ne space (KvCall.put.inj same).1.symm
        rcases slots_handle (.put space key v x) s.shared space key with ⟨-, not, -⟩ | ⟨-, not⟩ |
            ⟨v', x', -, written⟩
        · exact absurd ⟨rfl, rfl⟩ not
        · exact not.elim
        · rw [nothing space.other] at other
          have one := congrArg List.length (written (nothing space))
          cases space <;> simp only [Space.other, List.length_nil, List.length_singleton]
            at other one <;> omega
      · have first := left .volatile fun v x same => writes ⟨_, v, x, same⟩
        have second := left .persistent fun v x same => writes ⟨_, v, x, same⟩
        omega

variable {labels : List RequestLabel}

theorem kept_of_orderly {s : Requests}
    (orderly : requests.Always Orderly Requests.start labels)
    (reached : requests.run Requests.start labels = some s) : Kept s :=
  System.run_preserves (fun _ _ _ orderly kept stepped => kept.step orderly stepped) orderly
    kept_start reached

/-! ## Where a value comes from -/

/-- Two requests of the run whose origins share a key are about one origin. -/
def Apart (s : Requests) : Prop :=
  ∀ i j about about' p p', s.task i = some ⟨about, p⟩ → s.task j = some ⟨about', p'⟩ →
    ∀ o ∈ about.origin, ∀ o' ∈ about'.origin, keyFor o = keyFor o' → o = o'

theorem Apart.step {s s' : Requests} {l : RequestLabel} (apart : Apart s) (orderly : Orderly s l)
    (stepped : requests.step s l = some s') : Apart s' := by
  intro i j about about' p p' here there o named o' named' same
  cases l with
  | start k new =>
      obtain ⟨free, shared, -, rfl⟩ := System.step_start stepped
      by_cases own : i = k <;> by_cases own' : j = k
      · subst own own'
        rw [Pool.put_task_self] at here there
        cases here
        cases there
        exact Option.some.inj (named.symm.trans named')
      · subst own
        rw [Pool.put_task_self] at here
        rw [Pool.put_task_of_ne s own'] at there
        cases here
        exact (orderly o named j _ there o' named' same.symm).symm
      · subst own'
        rw [Pool.put_task_self] at there
        rw [Pool.put_task_of_ne s own] at here
        cases there
        exact orderly o' named' i _ here o named same
      · rw [Pool.put_task_of_ne s own] at here
        rw [Pool.put_task_of_ne s own'] at there
        exact apart i j _ _ _ _ here there o named o' named' same
  | advance k =>
      obtain ⟨moved, op, next, at_, rfl⟩ := System.step_advance stepped
      have before : ∀ {i about p}, (s.put k ⟨moved, next (requests.handle op s.shared).1⟩
          (requests.handle op s.shared).2).task i = some ⟨about, p⟩ →
          ∃ p', s.task i = some ⟨about, p'⟩ := by
        intro i about p found
        rw [Pool.put_task_eq_some] at found
        rcases found with ⟨rfl, found⟩ | ⟨own, found⟩
        · cases found
          exact ⟨_, at_⟩
        · exact ⟨p, found⟩
      obtain ⟨q, here⟩ := before here
      obtain ⟨q', there⟩ := before there
      exact apart i j _ _ _ _ here there o named o' named' same

/-- The value was written by a put; the puts of its key that had made no call by then have yet
to remove from its namespace. -/
def WrittenBy (labels : List RequestLabel) (s : Requests) (space : Space) (key : Text)
    (slot : Slot SystemTime) : Prop :=
  ∃ n i o e, labels[n]? = some (.advance i) ∧
    requests.callAt Requests.start labels n =
      some (.put o e, .put space (keyFor o) (encode e) e.expiresAt) ∧
    keyFor o = key ∧ slot = slotOf e ∧ s.aboutOf i = some (.put o e) ∧
    ∀ j o' e' p, j ≠ i → s.task j = some ⟨.put o' e', p⟩ → keyFor o' = key →
      (∃ m, m < n ∧ labels[m]? = some (.advance j)) ∨ .remove space key ∈ p.ahead

theorem writtenBy_step {s s' : Requests} {l : RequestLabel}
    (reached : requests.run Requests.start labels = some s) (kept : Kept s)
    (written : ∀ (space : Space) key, ∀ slot ∈ s.shared.slots space.ns key,
      WrittenBy labels s space key slot)
    (stepped : requests.step s l = some s') (space : Space) (key : Text) (slot : Slot SystemTime)
    (member : slot ∈ s'.shared.slots space.ns key) :
    WrittenBy (labels ++ [l]) s' space key slot := by
  -- what an older value keeps, given what the step leaves of the puts under way
  have older : slot ∈ s.shared.slots space.ns key →
      (∀ j o' e' p', s'.task j = some ⟨.put o' e', p'⟩ → keyFor o' = key →
        .remove space key ∈ p'.ahead ∨ ∃ p, s.task j = some ⟨.put o' e', p⟩ ∧
          (.remove space key ∈ p.ahead → .remove space key ∈ p'.ahead)) →
      (∀ i about, s.aboutOf i = some about → s'.aboutOf i = some about) →
      WrittenBy (labels ++ [l]) s' space key slot := by
    intro before tasks abouts
    obtain ⟨n, i, o, e, taken, called, same, value, about, others⟩ :=
      written space key slot before
    have inside := System.lt_of_callAt called
    refine ⟨n, i, o, e, ?_, ?_, same, value, abouts i _ about, ?_⟩
    · rw [List.getElem?_append_left inside, taken]
    · rw [System.callAt_append inside, called]
    · intro j o' e' p' other there keys
      rcases tasks j o' e' p' there keys with owes | ⟨p, before, keeps⟩
      · exact .inr owes
      · rcases others j o' e' p other before keys with ⟨m, earlier, taken'⟩ | owes
        · refine .inl ⟨m, earlier, ?_⟩
          rw [List.getElem?_append_left (earlier.trans inside), taken']
        · exact .inr (keeps owes)
  cases l with
  | start k about =>
      obtain ⟨free, shared, entered, rfl⟩ := System.step_start stepped
      cases entered
      refine older member ?_ ?_
      · intro j o' e' p' there keys
        rw [Pool.put_task_eq_some] at there
        rcases there with ⟨rfl, there⟩ | ⟨own, there⟩
        · cases there
          have ahead : (requests.body (.put o' e')).ahead = putCalls o' e' :=
            (put_straight o' e').ahead_eq
          left
          rw [ahead, ← keys]
          rcases Space.eq_or e'.space space with rfl | rfl <;> simp [putCalls]
        · exact .inr ⟨p', there, id⟩
      · intro i about' named
        have other : i ≠ k := by
          rintro rfl
          simp [Pool.aboutOf, free] at named
        rw [Pool.aboutOf, Pool.put_task_of_ne s other]
        exact named
  | advance k =>
      obtain ⟨about, op, next, here, rfl⟩ := System.step_advance stepped
      have abouts : ∀ i about', s.aboutOf i = some about' →
          (s.put k ⟨about, next (requests.handle op s.shared).1⟩
            (requests.handle op s.shared).2).aboutOf i = some about' := by
        intro i about' named
        by_cases own : i = k
        · subst own
          simpa [Pool.aboutOf, here] using named
        · rw [Pool.aboutOf, Pool.put_task_of_ne s own]
          exact named
      change slot ∈ (KvCall.handle op s.shared).2.slots space.ns key at member
      rcases slots_handle op s.shared space key with ⟨still, -, unwiped⟩ | ⟨empty, -⟩ |
          ⟨value, expires, rfl, fresh⟩
      · rw [still] at member
        refine older member ?_ abouts
        intro j o' e' p' there keys
        rw [Pool.put_task_eq_some] at there
        rcases there with ⟨rfl, there⟩ | ⟨own, there⟩
        · cases there
          refine .inr ⟨_, here, fun owes => ?_⟩
          rw [(put_steps (left_of_residual kept.residual here) _).1, List.mem_cons] at owes
          refine owes.resolve_left ?_
          rintro rfl
          exact unwiped ⟨rfl, rfl⟩
        · exact .inr ⟨p', there, id⟩
      · rw [empty] at member
        cases member
      · rw [fresh (kept.write_finds_nothing here space), List.mem_singleton] at member
        obtain ⟨o, e, rfl, rfl, rfl, rfl, rfl, -⟩ := writer (left_of_residual kept.residual here)
        refine ⟨labels.length, k, o, e, List.getElem?_concat_length, ?_, rfl, member,
          abouts k _ (by simp [Pool.aboutOf, here]), ?_⟩
        · rw [System.callAt_concat reached]
          simp [Pool.nextOp, here]
        · intro j o' e' p other there keys
          rw [Pool.put_task_of_ne s other] at there
          rcases System.body_or_advanced rfl reached there with rfl | ⟨m, taken⟩
          · have ahead : (requests.body (.put o' e')).ahead = putCalls o' e' :=
              (put_straight o' e').ahead_eq
            right
            rw [ahead, ← keys]
            rcases Space.eq_or e'.space e.space with same | same <;> simp [putCalls, same]
          · have inside := (List.getElem?_eq_some_iff.mp taken).1
            exact .inl ⟨m, inside, by rw [List.getElem?_append_left inside, taken]⟩

theorem done_of_finished {s : Requests} (finished : s.Finished) {i : Nat} {about : Request}
    (there : s.task i = some ⟨about, p⟩) : p.ahead = [] := by
  obtain ⟨a, ended⟩ := Option.isSome_iff_exists.mp (finished i _ there)
  have ended : p = .done a := Program.result_eq_some.mp ended
  rw [ended]
  rfl

theorem oneEach_of_orderly
    (orderly : requests.Always Orderly Requests.start labels) : OneEach labels := by
  intro s reached finished
  have kept := kept_of_orderly orderly reached
  have invariant : Apart s ∧ ∀ (space : Space) key, ∀ slot ∈ s.shared.slots space.ns key,
      WrittenBy labels s space key slot := by
    refine System.run_induction
      (motive := fun labels s => requests.Always Orderly Requests.start labels → Apart s ∧
        ∀ (space : Space) key, ∀ slot ∈ s.shared.slots space.ns key,
          WrittenBy labels s space key slot) ?_ ?_ orderly reached orderly
    · refine fun _ => ⟨?_, ?_⟩
      · intro i j about about' p p' here
        cases here
      · intro space key slot member
        cases member
    · intro labels s l s' reached ok ih stepped always
      obtain ⟨apart, written⟩ := ih always.append.1
      exact ⟨apart.step ok stepped,
        writtenBy_step reached (kept_of_orderly always.append.1 reached) written stepped⟩
  obtain ⟨apart, written⟩ := invariant
  refine ⟨fun o => kept.atMostOne (keyFor o), ?_⟩
  intro k about named o own space slot member
  obtain ⟨n, i, o', e, taken, called, same, value, writer, others⟩ :=
    written space (keyFor o) slot member
  obtain ⟨⟨about, left⟩, there, rfl⟩ := Option.map_eq_some_iff.mp named
  obtain ⟨⟨about', left'⟩, there', rfl⟩ := Option.map_eq_some_iff.mp writer
  obtain rfl : o' = o := apart i k _ _ _ _ there' there o' rfl o own same
  refine ⟨n, i, e, taken, called, value, ?_⟩
  intro j e' other rival
  obtain ⟨⟨about'', p⟩, found, rfl⟩ := Option.map_eq_some_iff.mp rival
  rcases others j o' e' p other found rfl with earlier | owes
  · exact earlier
  · rw [done_of_finished finished found] at owes
    cases owes

/-! ## Evictions -/

/-- A value that stands is in its namespace. -/
theorem slots_of_stands {s : Requests} {n : Nat} {space : Space}
    {key : Text} (orderly : requests.Always Orderly Requests.start labels)
    (reached : requests.run Requests.start labels = some s) (stands : Stands labels n space key) :
    s.shared.slots space.ns key ≠ [] := by
  refine System.run_induction (motive := fun labels s =>
    requests.Always Orderly Requests.start labels → Stands labels n space key →
      s.shared.slots space.ns key ≠ []) ?_ ?_ orderly reached orderly stands
  · rintro - ⟨⟨c, called, -⟩, -⟩
    exact absurd (System.lt_of_callAt called) (Nat.not_lt_zero n)
  · intro labels s l s' reached ok ih stepped always stands
    obtain ⟨⟨c, called, writes⟩, unwiped⟩ := stands
    have kept := kept_of_orderly always.append.1 reached
    have now : ∀ c ∈ s.nextOp l, n < labels.length → ¬ c.2.Wipes space key := by
      intro c next earlier
      refine unwiped labels.length earlier c ?_
      rw [System.callAt_concat reached]
      exact next
    cases l with
    | start k about =>
        obtain ⟨free, shared, entered, rfl⟩ := System.step_start stepped
        cases entered
        have inside : n < labels.length := by
          have bound := System.lt_of_callAt called
          rw [List.length_append, List.length_singleton] at bound
          rcases Nat.lt_succ_iff_lt_or_eq.mp bound with inside | rfl
          · exact inside
          · rw [System.callAt_concat reached] at called
            cases called
        rw [System.callAt_append inside] at called
        refine ih always.append.1 ⟨⟨c, called, writes⟩, fun m later c' called' => ?_⟩
        refine unwiped m later c' ?_
        rw [System.callAt_append (System.lt_of_callAt called')]
        exact called'
    | advance k =>
        obtain ⟨about, op, next, here, rfl⟩ := System.step_advance stepped
        have nextOp : s.nextOp (.advance k) = some (about, op) := by simp [Pool.nextOp, here]
        change (KvCall.handle op s.shared).2.slots space.ns key ≠ []
        have bound := System.lt_of_callAt called
        rw [List.length_append, List.length_singleton] at bound
        rcases Nat.lt_succ_iff_lt_or_eq.mp bound with inside | rfl
        · rw [System.callAt_append inside] at called
          have before := ih always.append.1 ⟨⟨c, called, writes⟩, fun m later c' called' =>
            unwiped m later c' (by
              rw [System.callAt_append (System.lt_of_callAt called')]
              exact called')⟩
          have quiet := now (about, op) nextOp inside
          rcases slots_handle op s.shared space key with ⟨still, -⟩ | ⟨-, wipes⟩ |
              ⟨value, expires, rfl, -⟩
          · rw [still]
            exact before
          · exact absurd wipes quiet
          · exact absurd (kept.write_finds_nothing here space) before
        · rw [System.callAt_concat reached, nextOp] at called
          cases called
          rcases slots_handle op s.shared space key with ⟨-, unwritten, -⟩ | ⟨-, wipes⟩ |
              ⟨value, expires, rfl, fresh⟩
          · exact absurd writes unwritten
          · cases op <;> first | exact wipes.elim | exact writes.elim
          · rw [fresh (kept.write_finds_nothing here space)]
            exact List.cons_ne_nil _ _

theorem Stands.take {n m : Nat} {space : Space} {key : Text}
    (stands : Stands labels n space key) (later : n < m) :
    Stands (labels.take m) n space key := by
  obtain ⟨⟨c, called, writes⟩, unwiped⟩ := stands
  refine ⟨⟨c, ?_, writes⟩, fun k after c' called' => ?_⟩
  · rw [System.callAt_take later]
    exact called
  · have inside := System.lt_of_callAt called'
    rw [System.callAt_take (inside.trans_le (List.length_take_le m labels))] at called'
    exact unwiped k after c' called'

/-- A lookup that goes on to a removal without another read has it ahead from its read on. -/
theorem removal_ahead {middle : List RequestLabel} {s s' : Requests} {j : Nat} {o : Origin}
    {now : SystemTime} {space : Space} {key : Text}
    {next : Unit → StoreProgram (Option Bool)} (left : Left (.lookup o now) p)
    (there : s.task j = some ⟨.lookup o now, p⟩) (reached : requests.run s middle = some s')
    (there' : s'.task j = some ⟨.lookup o now, .call (.remove space key) next⟩)
    (noRead : ∀ n, middle[n]? = some (.advance j) → ∀ read keys,
      requests.callAt s middle n ≠ some (.lookup o now, .getMany read keys)) :
    .remove space key ∈ p.ahead := by
  rcases left with ⟨read, next', rfl⟩ | ⟨ops, -, straight⟩
  · rcases System.called_or_left there reached with still | ⟨n, taken, called⟩
    · rw [there'] at still
      cases still
    · exact absurd called (noRead n taken read [keyFor o])
  · obtain ⟨t, q, found, steps⟩ := System.task_run there reached
    rw [there'] at found
    cases found
    obtain ⟨ops', suffix, straight'⟩ := straight.of_steps steps
    rw [straight.ahead_eq]
    refine suffix.subset ?_
    rw [← straight'.ahead_eq]
    exact List.mem_cons_self

theorem evictsNoFresher_of_orderly
    (orderly : requests.Always Orderly Requests.start labels) : EvictsNoFresher labels := by
  intro s reached n m j o now read space before taken taken' readAt removeAt noRead a b standsA
    standsB
  by_contra later
  rw [Nat.not_le] at later
  have inside : b < m := by
    obtain ⟨⟨c, called, -⟩, -⟩ := standsB
    exact (System.lt_of_callAt called).trans_le (List.length_take_le m labels)
  -- the later write, and what it finds
  obtain ⟨⟨c, written, writes⟩, -⟩ := standsB
  rw [System.callAt_take inside] at written
  obtain ⟨i, next, takenB, there⟩ := System.callAt_some written
  have reachedB := System.run_take reached b
  have keptB := kept_of_orderly (orderly.take b) reachedB
  obtain ⟨about, op⟩ := c
  rcases Nat.lt_trichotomy b n with early | rfl | late
  · -- it came before the read: the value read already stood
    have stood : Stands (labels.take b) a read (keyFor o) := by
      have stood := standsA.take later
      rwa [List.take_take, Nat.min_eq_left early.le] at stood
    cases op with
    | put space' key' value expires =>
        obtain ⟨rfl, rfl⟩ := writes
        exact slots_of_stands (orderly.take b) reachedB stood
          (keptB.write_finds_nothing there read)
    | getMany | remove | clear => exact writes
  · rw [readAt] at written
    cases written
    exact writes
  · -- it came between the read and the removal
    obtain ⟨j', next', takenN, thereN⟩ := System.callAt_some readAt
    rw [taken] at takenN
    cases takenN
    obtain ⟨j', next'', takenM, thereM⟩ := System.callAt_some removeAt
    rw [taken'] at takenM
    cases takenM
    obtain ⟨t, p, thereB, -⟩ := System.task_run thereN (System.run_between reached late.le)
    have leftB := left_of_residual keptB.residual thereB
    have ahead : .remove space (keyFor o) ∈ p.ahead := by
      refine removal_ahead leftB thereB (System.run_between reached inside.le) thereM ?_
      intro k takenK read' keys called
      obtain ⟨takenK, bound⟩ := System.getElem?_between takenK
      rw [System.callAt_between reached bound] at called
      exact noRead (b + k) (late.trans_le (Nat.le_add_right b k)) bound takenK read' keys called
    cases op with
    | put space' key' value expires =>
        have other : j ≠ i := by
          rintro rfl
          rw [thereB] at there
          cases there
          obtain ⟨o', e', same, -⟩ := writer leftB
          cases same
        have ok := orderly.at reachedB takenB
        exact ok _ (by simp [Pool.nextOp, there]) space (keyFor o) writes j _ p other thereB ahead
    | getMany | remove | clear => exact writes

/-- A run of one request is orderly. -/
theorem orderly_alone (i : Nat) (about : Request) (n : Nat) :
    requests.Always Orderly Requests.start (.start i about :: List.replicate n (.advance i)) := by
  refine ⟨?_, fun s' stepped => System.always_advances ?_ ?_ n⟩
  · intro o named j task there
    cases there
  · intro s nobody c next space key writes j about left other there
    rw [nobody j other] at there
    cases there
  · obtain ⟨free, shared, -, rfl⟩ := System.step_start stepped
    intro j other
    rw [Pool.put_task_of_ne _ other]
    rfl

/-- In a run whose writes come between no two steps of another task, every origin ends with one
value at most, from a put that no other put followed entirely, and no lookup's eviction removes
a value put after the one it read. -/
theorem orderly_run_oneEach (labels : List RequestLabel)
    (orderly : requests.Always Orderly Requests.start labels) :
    OneEach labels ∧ EvictsNoFresher labels :=
  ⟨oneEach_of_orderly orderly, evictsNoFresher_of_orderly orderly⟩

theorem orderly_run_oneEach_put :
    let labels : List RequestLabel := .start 0 (.put aTest ⟨.fromUnix 100, true⟩) ::
      List.replicate 3 (.advance 0)
    OneEach labels ∧ EvictsNoFresher labels :=
  orderly_run_oneEach _ (orderly_alone 0 _ 3)

/-- Two puts, one persistent: each has removed from both namespaces before either writes. -/
def twoPuts : List RequestLabel :=
  [.start 0 (.put aTest ⟨.fromUnix 100, true⟩), .start 1 (.put aTest ⟨.fromUnix 100, false⟩),
    .advance 0, .advance 0, .advance 1, .advance 1, .advance 0, .advance 1]

/-- A lookup at two seconds reads an entry of one second; a put replaces it before the lookup
removes. -/
def lateEviction : List RequestLabel :=
  [.start 0 (.put aTest ⟨.fromUnix 1, false⟩), .advance 0, .advance 0, .advance 0,
    .start 1 (.lookup aTest (.fromUnix 2)), .advance 1, .advance 1,
    .start 2 (.put aTest ⟨.fromUnix 100, false⟩), .advance 2, .advance 2, .advance 2,
    .advance 1, .advance 1]

instance (space : Space) (key : Text) : (op : KvCall) → Decidable (op.Writes space key)
  | .put _ _ _ _ => inferInstanceAs (Decidable (_ ∧ _))
  | .getMany _ _ | .remove _ _ | .clear _ => .isFalse not_false

instance (space : Space) (key : Text) : (op : KvCall) → Decidable (op.Wipes space key)
  | .remove _ _ => inferInstanceAs (Decidable (_ ∧ _))
  | .clear _ => inferInstanceAs (Decidable (_ = _))
  | .getMany _ _ | .put _ _ _ _ => .isFalse not_false

/-- A value stands if no call up to the end of the run wipes it. -/
theorem stands_of_bounded {n : Nat} {space : Space} {key : Text}
    (written : ∃ c ∈ requests.callAt Requests.start labels n, c.2.Writes space key)
    (unwiped : ∀ m < labels.length, n < m → ∀ c ∈ requests.callAt Requests.start labels m,
      ¬ c.2.Wipes space key) : Stands labels n space key :=
  ⟨written, fun m later c called => unwiped m (System.lt_of_callAt called) later c called⟩

theorem two_puts_leave_two_values_late_eviction :
    ¬ OneEach twoPuts ∧ ¬ EvictsNoFresher lateEviction := by
  constructor
  · intro one
    have reached : requests.run Requests.start twoPuts =
        some (requests.after Requests.start twoPuts) := System.run_eq_after (by decide +kernel)
    have finished : (requests.after Requests.start twoPuts).Finished := by
      intro i task there
      match i with
      | 0 => exact (by decide +kernel : ∀ task ∈ (requests.after Requests.start twoPuts).task 0,
          task.rest.result.isSome) task there
      | 1 => exact (by decide +kernel : ∀ task ∈ (requests.after Requests.start twoPuts).task 1,
          task.rest.result.isSome) task there
      | n + 2 =>
          rw [System.task_none rfl (by simp [twoPuts]) reached] at there
          cases there
    have few := (one _ reached finished).1 aTest
    revert few
    decide +kernel
  · intro evicts
    have earlier := evicts _ (System.run_eq_after (by decide +kernel)) 6 11 1 aTest
      (.fromUnix 2) .volatile .volatile (by decide) rfl rfl (by decide +kernel)
      (by decide +kernel) ?_ 3 10 (stands_of_bounded (by decide +kernel) (by decide +kernel))
      (stands_of_bounded (by decide +kernel) (by decide +kernel))
    · exact absurd earlier (by decide)
    · intro n' after before taken
      interval_cases n' <;> cases taken

end HClient.AltSvc
