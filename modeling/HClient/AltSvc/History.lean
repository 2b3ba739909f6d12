import Mathlib
import HClient.AltSvc.Store

/-!
# What a history of calls leaves advertised

The abstract state is at most one entry for each origin. The two namespaces represent it for a
set of origins as long as these have different keys, and every call preserves that, so that the
answer of a lookup can be read off the calls made before it.
-/
namespace HClient.AltSvc

open Effect Kv

inductive Call where
  | note (origin : Origin) (value : FieldValue) (now : SystemTime)
  | advertisesH3 (origin : Origin) (now : SystemTime)
  | networkChanged
  deriving DecidableEq

def Call.run : Call → Memory → Memory
  | .note origin value now, kv => ((AltSvc.note origin value now).runWith KvCall.handle kv).2
  | .advertisesH3 origin now, kv =>
      ((AltSvc.advertisesH3 origin now).runWith KvCall.handle kv).2
  | .networkChanged, kv => (AltSvc.networkChanged.runWith KvCall.handle kv).2

/-- Calls made one after another. -/
def runAll (calls : List Call) (kv : Memory) : Memory := calls.foldl (fun kv c => c.run kv) kv

/-- What a lookup made after some calls on an empty store answers. -/
def answer (calls : List Call) (origin : Origin) (now : SystemTime) : Bool :=
  ((advertisesH3 origin now).runWith KvCall.handle (runAll calls MemoryStore.new)).1

def Call.origin : Call → Option Origin
  | .note origin _ _ => some origin
  | .advertisesH3 origin _ => some origin
  | .networkChanged => none

/-! ## The abstract state -/

abbrev Entries := Origin → Option Entry

def leased (origin : Origin) (value : FieldValue) (now : SystemTime) : Option Entry :=
  (advertised origin value).map fun a => ⟨expiryOf now a.maxAge, a.persist⟩

/-- The byte store shows the entry: its lease does not end at the epoch or before. -/
def Entry.shown (e : Entry) : Bool := SystemTime.unixEpoch < e.expiresAt

/-- What a lookup at a time forgets. -/
def Entry.lapsed (e : Entry) (now : SystemTime) : Bool :=
  e.shown ∧ ¬ now < Hsts.keptExpiry e.expiresAt

def Call.onEntries : Call → Entries → Entries
  | .note origin value now, E => Function.update E origin (leased origin value now)
  | .advertisesH3 origin now, E =>
      Function.update E origin ((E origin).filter fun e => !e.lapsed now)
  | .networkChanged, E => fun origin => (E origin).filter Entry.persist

def standing (calls : List Call) : Entries :=
  calls.foldl (fun E c => c.onEntries E) fun _ => none

/-! ## The namespaces represent it -/

def slotOf (e : Entry) : Slot SystemTime := ⟨encode e, some e.expiresAt⟩

/-- In each namespace stands, under the key of each of the origins, its entry if it belongs
there and nothing else. -/
def Represents (names : Set Origin) (kv : Memory) (E : Entries) : Prop :=
  ∀ o ∈ names, ∀ space : Space, kv.slots space.ns (keyFor o) =
    ((E o).filter fun e => e.space = space).toList.map slotOf

theorem ns_inj {a b : Space} (same : a.ns = b.ns) : a = b := by
  cases a <;> cases b <;> first | rfl | exact absurd same (by decide)

theorem Space.other_ne (space : Space) : space.other ≠ space := by cases space <;> decide

theorem Space.eq_or (space other : Space) : other = space ∨ other = space.other := by
  cases space <;> cases other <;> decide

@[simp] theorem slotOf_value (e : Entry) : (slotOf e).value = encode e := rfl

@[simp] theorem slotOf_isLive (e : Entry) :
    (slotOf e).isLive SystemTime.unixEpoch = e.shown := by
  simp only [slotOf, Slot.isLive, Entry.shown, ← SystemTime.not_le, decide_not]

section Calls
variable {names : Set Origin} {kv : Memory} {E : Entries} {o : Origin}

theorem represents_new : Represents names MemoryStore.new fun _ => none := fun _ _ _ => rfl

theorem readOne_represents (h : Represents names kv E) (member : o ∈ names) (space : Space) :
    kv.readOne space.ns (keyFor o) SystemTime.unixEpoch =
      ((E o).filter fun e => e.space = space ∧ e.shown).toList.map encode := by
  rw [MemoryStore.readOne, h o member]
  cases E o with
  | none => rfl
  | some e =>
      by_cases here : e.space = space <;> cases seen : e.shown <;>
        simp [here, seen, Option.filter]

/-- What a lookup is handed. -/
def readBack (e : Entry) : Option Entry :=
  if e.shown then some ⟨Hsts.keptExpiry e.expiresAt, e.persist⟩ else none

theorem getMany_represents (h : Represents names kv E) (member : o ∈ names) (space : Space) :
    (kv.getMany space.ns [keyFor o] SystemTime.unixEpoch).flatten =
      ((E o).filter fun e => e.space = space ∧ e.shown).toList.map encode := by
  simpa [MemoryStore.getMany] using readOne_represents h member space

theorem get_represents (h : Represents names kv E) (member : o ∈ names) :
    (KvStore.get o).runWith KvCall.handle kv = ((E o).bind readBack, kv) := by
  have asked := getMany_represents h member
  unfold KvStore.get
  cases kept : E o with
  | none =>
      simp only [kept, Option.filter_none, Option.toList_none, List.map_nil] at asked
      simp [KvCall.handle, asked]
  | some e =>
      simp only [kept] at asked
      cases flag : e.persist <;> cases seen : e.shown <;>
        simp [KvCall.handle, asked, Entry.space, flag, seen, readBack, Option.filter,
          decode_encode]

/-- A removal from a namespace touches nothing but its key there. -/
theorem slots_remove_space (kv : Memory) (space space' : Space) (key key' : Text) :
    (kv.remove space.ns key).slots space'.ns key' =
      if space' = space ∧ key' = key then [] else kv.slots space'.ns key' := by
  by_cases same : space' = space
  · subst same
    simp [MemoryStore.slots_remove]
  · rw [MemoryStore.slots_remove_other _ fun e => same (ns_inj e)]
    simp [same]

theorem slots_put_space (kv : Memory) (space space' : Space) (key key' : Text) (value : Bytes)
    (expires : Option SystemTime) (empty : kv.slots space.ns key = []) :
    (kv.put space.ns key value expires SystemTime.unixEpoch).slots space'.ns key' =
      if space' = space ∧ key' = key then [⟨value, expires⟩] else kv.slots space'.ns key' := by
  by_cases same : space' = space
  · subst same
    simp [MemoryStore.slots_put, empty]
  · rw [MemoryStore.slots_put_other _ fun e => same (ns_inj e)]
    simp [same]

/-- Both namespaces are rid of an origin's key. -/
theorem slots_removes (kv : Memory) (first second : Space) (both : second = first.other)
    (key key' : Text) (space : Space) :
    ((kv.remove first.ns key).remove second.ns key).slots space.ns key' =
      if key' = key then [] else kv.slots space.ns key' := by
  subst both
  rw [slots_remove_space, slots_remove_space]
  rcases Space.eq_or first space with rfl | rfl <;> by_cases same : key' = key <;>
    simp [same, Space.other_ne, (Space.other_ne _).symm]

theorem put_represents (apart : names.InjOn keyFor) (h : Represents names kv E)
    (member : o ∈ names) (e : Entry) :
    Represents names ((KvStore.put o e).runWith KvCall.handle kv).2
      (Function.update E o (some e)) := by
  intro o' member' space
  change (((kv.remove e.space.other.ns (keyFor o)).remove e.space.ns (keyFor o)).put e.space.ns
    (keyFor o) (encode e) (some e.expiresAt) SystemTime.unixEpoch).slots space.ns (keyFor o') = _
  have removed := slots_removes kv e.space.other e.space (by cases e.space <;> rfl) (keyFor o)
  rw [slots_put_space _ _ _ _ _ _ _ (by simp [removed]), removed]
  by_cases same : o' = o
  · subst same
    by_cases here : space = e.space
    · simp [here, slotOf, Option.filter]
    · simp [here, Ne.symm here, Option.filter]
  · have key : keyFor o' ≠ keyFor o := fun keys => same (apart member' member keys)
    simp [key, same, h o' member' space]

theorem remove_represents (apart : names.InjOn keyFor) (h : Represents names kv E)
    (member : o ∈ names) :
    Represents names ((KvStore.remove o).runWith KvCall.handle kv).2
      (Function.update E o none) := by
  intro o' member' space
  change ((kv.remove Space.volatile.ns (keyFor o)).remove Space.persistent.ns
    (keyFor o)).slots space.ns (keyFor o') = _
  rw [slots_removes _ .volatile .persistent rfl]
  by_cases same : o' = o
  · subst same
    simp
  · have key : keyFor o' ≠ keyFor o := fun keys => same (apart member' member keys)
    simp [key, same, h o' member' space]

theorem retainPersistent_represents (h : Represents names kv E) :
    Represents names (KvStore.retainPersistent.runWith KvCall.handle kv).2
      fun o => (E o).filter Entry.persist := by
  intro o member space
  change (kv.clear Space.volatile.ns).slots space.ns (keyFor o) = _
  cases space with
  | volatile =>
      rw [MemoryStore.slots_clear]
      cases kept : E o with
      | none => simp [kept]
      | some e => cases flag : e.persist <;> simp [kept, Option.filter, Entry.space, flag]
  | persistent =>
      rw [MemoryStore.slots_clear_other _ (by decide), h o member]
      cases kept : E o with
      | none => simp [kept]
      | some e => cases flag : e.persist <;> simp [kept, Option.filter, Entry.space, flag]

theorem advertisesH3_represents (apart : names.InjOn keyFor) (h : Represents names kv E)
    (member : o ∈ names) (now : SystemTime) :
    ((advertisesH3 o now).runWith KvCall.handle kv).1 =
        ((E o).any fun e => e.shown ∧ now < Hsts.keptExpiry e.expiresAt) ∧
      Represents names ((advertisesH3 o now).runWith KvCall.handle kv).2
        (Function.update E o ((E o).filter fun e => !e.lapsed now)) := by
  unfold advertisesH3
  simp only [Program.bind_eq, Program.runWith_bind, get_represents h member]
  have unchanged : ∀ e?, E o = e? → Function.update E o e? = E := by
    rintro e? rfl
    exact Function.update_eq_self o E
  cases kept : E o with
  | none =>
      refine ⟨rfl, ?_⟩
      simpa [unchanged none kept] using h
  | some e =>
      have same := unchanged _ kept
      cases seen : e.shown with
      | false =>
          refine ⟨by simp [readBack, seen], ?_⟩
          simpa [readBack, seen, Entry.lapsed, Option.filter, same] using h
      | true =>
          by_cases live : now < Hsts.keptExpiry e.expiresAt
          · refine ⟨by simp [readBack, seen, live], ?_⟩
            simpa [readBack, seen, Entry.lapsed, Option.filter, live, same] using h
          · refine ⟨by simp [readBack, seen, live], ?_⟩
            have gone := remove_represents apart h member
            simpa [readBack, seen, Entry.lapsed, Option.filter, live] using gone

theorem run_represents (apart : names.InjOn keyFor) (h : Represents names kv E) (c : Call)
    (inside : ∀ o ∈ c.origin, o ∈ names) : Represents names (c.run kv) (c.onEntries E) := by
  cases c with
  | note origin value now =>
      have member : origin ∈ names := inside origin rfl
      simp only [Call.run, Call.onEntries, note, leased]
      cases advertised origin value with
      | none => exact remove_represents apart h member
      | some a => exact put_represents apart h member _
  | advertisesH3 origin now => exact (advertisesH3_represents apart h (inside origin rfl) now).2
  | networkChanged => exact retainPersistent_represents h

theorem runAll_represents (apart : names.InjOn keyFor) (calls : List Call)
    (h : Represents names kv E) (inside : ∀ c ∈ calls, ∀ o ∈ c.origin, o ∈ names) :
    Represents names (runAll calls kv) (calls.foldl (fun E c => c.onEntries E) E) := by
  induction calls generalizing kv E with
  | nil => exact h
  | cons c calls ih =>
      obtain ⟨first, rest⟩ := List.forall_mem_cons.mp inside
      exact ih (run_represents apart h c first) rest

end Calls

/-! ## The history of an entry -/

/-- `value` came with the latest note of the origin, at `t`; `after` is what followed. -/
def LatestNote (calls : List Call) (o : Origin) (value : FieldValue) (t : SystemTime)
    (after : List Call) : Prop :=
  ∃ before, calls = before ++ .note o value t :: after ∧
    ∀ value' t', .note o value' t' ∉ after

/-- An entry outlives the calls that come after its note. -/
def Outlives (o : Origin) (e : Entry) (after : List Call) : Prop :=
  (e.persist ∨ .networkChanged ∉ after) ∧ ∀ t, .advertisesH3 o t ∈ after → !e.lapsed t

theorem latestNote_concat_noted {calls after : List Call} {o : Origin}
    {value value' : FieldValue} {t t' : SystemTime} :
    LatestNote (calls ++ [.note o value t]) o value' t' after ↔
      value' = value ∧ t' = t ∧ after = [] := by
  constructor
  · rintro ⟨before, split, latest⟩
    rcases List.eq_nil_or_concat after with rfl | ⟨front, last, rfl⟩
    · obtain ⟨-, same⟩ := List.append_inj' split rfl
      simp only [List.cons.injEq, Call.note.injEq] at same
      exact ⟨same.1.2.1.symm, same.1.2.2.symm, rfl⟩
    · rw [List.concat_eq_append, ← List.cons_append, ← List.append_assoc] at split
      obtain ⟨-, same⟩ := List.append_inj' split rfl
      rw [List.singleton_inj] at same
      exact absurd (by simp [← same]) (latest value t)
  · rintro ⟨rfl, rfl, rfl⟩
    exact ⟨calls, rfl, by simp⟩

theorem latestNote_concat_other {calls after : List Call} {o : Origin} {c : Call}
    (other : ∀ value t, c ≠ .note o value t) {value : FieldValue} {t : SystemTime} :
    LatestNote (calls ++ [c]) o value t after ↔
      ∃ after', after = after' ++ [c] ∧ LatestNote calls o value t after' := by
  constructor
  · rintro ⟨before, split, latest⟩
    rcases List.eq_nil_or_concat after with rfl | ⟨front, last, rfl⟩
    · obtain ⟨-, same⟩ := List.append_inj' split rfl
      exact absurd (List.singleton_inj.mp same) (other value t)
    · rw [List.concat_eq_append, ← List.cons_append, ← List.append_assoc] at split
      obtain ⟨rfl, same⟩ := List.append_inj' split rfl
      rw [List.singleton_inj] at same
      subst same
      refine ⟨front, by simp, before, rfl, fun value' t' member => ?_⟩
      exact latest value' t' (by simp [member])
  · rintro ⟨after', rfl, before, rfl, latest⟩
    refine ⟨before, by simp, fun value' t' member => ?_⟩
    rcases List.mem_append.mp member with inside | last
    · exact latest value' t' inside
    · exact other value' t' (List.mem_singleton.mp last).symm

theorem standing_concat (calls : List Call) (c : Call) :
    standing (calls ++ [c]) = c.onEntries (standing calls) := by
  simp [standing]

/-- What stands is what the latest note leased, as long as nothing after it ends that. -/
theorem standing_eq_some {calls : List Call} {o : Origin} {e : Entry} :
    standing calls o = some e ↔ ∃ value t after, LatestNote calls o value t after ∧
      leased o value t = some e ∧ Outlives o e after := by
  induction calls using List.reverseRecOn with
  | nil =>
      constructor
      · nofun
      · rintro ⟨value, t, after, ⟨before, split, -⟩, -⟩
        simp at split
  | append_singleton calls c ih =>
      rw [standing_concat]
      by_cases noted : ∃ value t, c = .note o value t
      · obtain ⟨value, t, rfl⟩ := noted
        simp only [latestNote_concat_noted, Call.onEntries, Function.update_self]
        constructor
        · intro h
          exact ⟨value, t, [], ⟨rfl, rfl, rfl⟩, h, .inr (by simp), by simp⟩
        · rintro ⟨_, _, _, ⟨rfl, rfl, rfl⟩, h, -⟩
          exact h
      · simp only [not_exists] at noted
        have still : c.onEntries (standing calls) o = some e ↔
            standing calls o = some e ∧ (e.persist ∨ c ≠ .networkChanged) ∧
              ∀ t, c = .advertisesH3 o t → !e.lapsed t := by
          cases c with
          | note origin value t =>
              have other : o ≠ origin := by
                rintro rfl
                exact noted value t rfl
              simp [Call.onEntries, other]
          | advertisesH3 origin t =>
              by_cases same : o = origin
              · subst same
                simp [Call.onEntries, Option.filter_eq_some_iff]
              · simp [Call.onEntries, same, Ne.symm same]
          | networkChanged => simp [Call.onEntries, Option.filter_eq_some_iff]
        rw [still, ih]
        simp only [latestNote_concat_other noted, Outlives]
        constructor
        · rintro ⟨⟨value, t, after, latest, leased, keeps, quiet⟩, kept, unlapsed⟩
          refine ⟨value, t, after ++ [c], ⟨after, rfl, latest⟩, leased, ?_, ?_⟩
          · rcases keeps with keeps | keeps
            · exact .inl keeps
            · exact kept.imp_right fun other => by simp [keeps, other.symm]
          · intro t' member
            rcases List.mem_append.mp member with inside | last
            · exact quiet t' inside
            · exact unlapsed t' (List.mem_singleton.mp last).symm
        · rintro ⟨value, t, _, ⟨after, rfl, latest⟩, leased, keeps, quiet⟩
          refine ⟨⟨value, t, after, latest, leased, ?_, ?_⟩, ?_, ?_⟩
          · exact keeps.imp_right fun absent member => absent (by simp [member])
          · exact fun t' member => quiet t' (by simp [member])
          · exact keeps.imp_right fun absent same => absent (by simp [same])
          · exact fun t' same => quiet t' (by simp [same])

/-! ## Whole seconds -/

theorem expiryOf_whole {now : SystemTime} (whole : now.WholeSeconds) (maxAge : Nat) :
    (expiryOf now maxAge).WholeSeconds := by
  obtain ⟨secs, seconds⟩ := whole
  unfold expiryOf SystemTime.checkedAdd
  split
  · refine ⟨secs + min (9600 * 3600) maxAge, ?_⟩
    simp only [Option.getD_some, maxLease, Duration.fromHours, Duration.fromSecs, nanosPerSec,
      seconds]
    omega
  · exact ⟨secs, seconds⟩

/-! ## The answer -/

def Origin.Undotted (o : Origin) : Prop := o.host.getLast? ≠ some '.'

instance (o : Origin) : Decidable o.Undotted := inferInstanceAs (Decidable (_ ≠ _))

/-- Origins whose hosts do not end in a dot keep their keys apart. -/
theorem keyFor_injOn : Set.InjOn keyFor {o | o.Undotted} :=
  fun _ ha _ hb same => keyFor_inj ha hb same

theorem answer_eq {calls : List Call} (undotted : ∀ c ∈ calls, ∀ o ∈ c.origin, o.Undotted)
    {o : Origin} (own : o.Undotted) (now : SystemTime) :
    answer calls o now =
      ((standing calls o).any fun e => e.shown ∧ now < Hsts.keptExpiry e.expiresAt) :=
  (advertisesH3_represents keyFor_injOn
    (runAll_represents keyFor_injOn calls represents_new undotted) own now).1

theorem standing_concat_other (calls : List Call) {c : Call} {o o' : Origin}
    (about : c.origin = some o') (other : o' ≠ o) :
    standing (calls ++ [c]) o = standing calls o := by
  rw [standing_concat]
  cases c with
  | note origin value t =>
      cases about
      exact Function.update_of_ne other.symm _ _
  | advertisesH3 origin t =>
      cases about
      exact Function.update_of_ne other.symm _ _
  | networkChanged => cases about

def Call.AtWholeSeconds : Call → Prop
  | .note _ _ now => now.WholeSeconds
  | .advertisesH3 _ now => now.WholeSeconds
  | .networkChanged => True

/-- An origin is answered for by its latest note alone, as long as neither a change of network
nor a lookup past the end of its lease has come since, and no call about another origin changes
the answer. -/
theorem advertisesH3_iff_latest (calls : List Call) (o : Origin) (now : SystemTime)
    (whole : ∀ c ∈ calls, c.AtWholeSeconds) (own : o.Undotted)
    (undotted : ∀ c ∈ calls, ∀ o' ∈ c.origin, o'.Undotted) :
    (answer calls o now = true ↔ ∃ value t a after, LatestNote calls o value t after ∧
      advertised o value = some a ∧ (a.persist ∨ .networkChanged ∉ after) ∧
      (∀ t', .advertisesH3 o t' ∈ after → t' < expiryOf t a.maxAge) ∧
      SystemTime.unixEpoch < expiryOf t a.maxAge ∧ now < expiryOf t a.maxAge) ∧
    ∀ c o', c.origin = some o' → o'.Undotted → o' ≠ o →
      answer (calls ++ [c]) o now = answer calls o now := by
  have kept : ∀ {value t a after}, LatestNote calls o value t after →
      SystemTime.unixEpoch < expiryOf t a →
      Hsts.keptExpiry (expiryOf t a) = expiryOf t a := by
    rintro value t a after ⟨before, split, -⟩ later
    refine Hsts.keptExpiry_of_whole (Int.le_of_lt later) (expiryOf_whole ?_ a)
    exact whole (.note o value t) (by simp [split])
  constructor
  · rw [answer_eq undotted own, Option.any_eq_true]
    constructor
    · rintro ⟨e, stands, holds⟩
      obtain ⟨value, t, after, latest, leased, keeps, quiet⟩ := standing_eq_some.mp stands
      obtain ⟨a, found, rfl⟩ := Option.map_eq_some_iff.mp leased
      simp only [decide_eq_true_eq, Entry.shown] at holds
      obtain ⟨later, live⟩ := holds
      have exact_ := kept latest later
      refine ⟨value, t, a, after, latest, found, keeps, fun t' member => ?_, later, ?_⟩
      · have unlapsed := quiet t' member
        simpa [Entry.lapsed, Entry.shown, later, exact_] using unlapsed
      · rwa [exact_] at live
    · rintro ⟨value, t, a, after, latest, found, keeps, quiet, later, live⟩
      have exact_ := kept latest later
      refine ⟨⟨expiryOf t a.maxAge, a.persist⟩, ?_, ?_⟩
      · refine standing_eq_some.mpr ⟨value, t, after, latest, by simp [leased, found], keeps, ?_⟩
        intro t' member
        simpa [Entry.lapsed, Entry.shown, later, exact_] using quiet t' member
      · simpa [Entry.shown, later, exact_] using live
  · intro c o' about undotted' other
    have all : ∀ c' ∈ calls ++ [c], ∀ o' ∈ c'.origin, o'.Undotted := by
      intro c' member o'' named
      rcases List.mem_append.mp member with inside | last
      · exact undotted c' inside o'' named
      · rw [List.mem_singleton.mp last, about] at named
        cases named
        exact undotted'
    rw [answer_eq all own, answer_eq undotted own, standing_concat_other calls about other]

def aTest : Origin := .new "a.test".toList 443

def h3At443 (maxAge : Nat) (persist : Bool) : FieldValue :=
  .alternatives [⟨alpnH3, none, 443, maxAge, persist⟩]

/-- A persistent advertisement of a minute, twenty seconds and a change of network later. -/
theorem advertisesH3_iff_latest_minute :
    answer [.note aTest (h3At443 60 true) (.fromUnix 100), .networkChanged] aTest
      (.fromUnix 120) = true :=
  (advertisesH3_iff_latest _ _ _ (by
    intro c member
    simp only [List.mem_cons, List.not_mem_nil, or_false] at member
    rcases member with rfl | rfl
    · exact ⟨100, by decide⟩
    · exact trivial) (by decide) (by decide)).1.mpr
    ⟨h3At443 60 true, .fromUnix 100, ⟨alpnH3, none, 443, 60, true⟩, [.networkChanged],
      ⟨[], rfl, by simp⟩, by decide, .inl rfl, by simp, by decide, by decide⟩

/-- A note counts if the network has not changed since or it was marked to persist. -/
def Counts (o : Origin) (value : FieldValue) (after : List Call) : Prop :=
  .networkChanged ∉ after ∨ ∃ a ∈ advertised o value, a.persist

/-- The latest note of the origin that counts came before its lease had ended, whatever was
noted or looked up since. -/
def StillAdvertised (calls : List Call) (o : Origin) (now : SystemTime) : Prop :=
  ∃ before value t after a, calls = before ++ .note o value t :: after ∧ Counts o value after ∧
    (∀ middle value' t' rest, after = middle ++ .note o value' t' :: rest →
      ¬ Counts o value' rest) ∧
    advertised o value = some a ∧
    now.nanos < t.nanos + min maxLease (Duration.fromSecs a.maxAge)

/-- A note that was replaced does not come back with a change of network, a lookup past the
lease forgets it for an earlier clock too, and a lease that ends before the epoch is not kept. -/
theorem advertisesH3_replaced_looked_up_early :
    (StillAdvertised [.note aTest (h3At443 60 true) (.fromUnix 0), .note aTest .clear (.fromUnix 1),
        .networkChanged] aTest (.fromUnix 2) ∧
      answer [.note aTest (h3At443 60 true) (.fromUnix 0), .note aTest .clear (.fromUnix 1),
        .networkChanged] aTest (.fromUnix 2) = false) ∧
    (StillAdvertised [.note aTest (h3At443 10 false) (.fromUnix 0),
        .advertisesH3 aTest (.fromUnix 20)] aTest (.fromUnix 5) ∧
      answer [.note aTest (h3At443 10 false) (.fromUnix 0), .advertisesH3 aTest (.fromUnix 20)]
        aTest (.fromUnix 5) = false) ∧
    StillAdvertised [.note aTest (h3At443 10 false) (.fromUnix (-100))] aTest (.fromUnix (-95)) ∧
      answer [.note aTest (h3At443 10 false) (.fromUnix (-100))] aTest (.fromUnix (-95)) =
        false := by
  refine ⟨⟨⟨[], h3At443 60 true, .fromUnix 0, _, ⟨alpnH3, none, 443, 60, true⟩, rfl,
      .inr ⟨_, rfl, rfl⟩, ?_, by decide, by decide⟩, by decide +kernel⟩,
    ⟨⟨[], h3At443 10 false, .fromUnix 0, _, ⟨alpnH3, none, 443, 10, false⟩, rfl,
      .inl (by simp), ?_, by decide, by decide⟩, by decide +kernel⟩,
    ⟨[], h3At443 10 false, .fromUnix (-100), _, ⟨alpnH3, none, 443, 10, false⟩, rfl,
      .inl (by simp), by simp, by decide, by decide⟩, by decide +kernel⟩
  · intro middle value' t' rest split
    match middle, split with
    | [], split =>
        cases split
        rintro (absent | ⟨a, found, -⟩)
        · simp at absent
        · cases found
    | [_], split => cases split
    | _ :: _ :: middle, split => simp at split
  · intro middle value' t' rest split
    match middle, split with
    | [], split => cases split
    | _ :: middle, split => simp at split

end HClient.AltSvc
