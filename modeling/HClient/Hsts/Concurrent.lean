import HClient.Effect.Interleave
import HClient.Hsts.Upgrade

/-!
# Notes and upgrades under way together

One store, any number of requests, each store call of theirs a step of its own. A lookup's
eviction is a step after the read that decided it, and what stands under the key by then may
be another policy.
-/
namespace HClient.Hsts

open Effect Kv

/-- The store and the time the latest call was started at. -/
structure Shared where
  kv : Memory
  clock : SystemTime

def Call.startedAt : Call → SystemTime
  | .note _ _ _ now => now
  | .upgrade _ now => now

def Call.uri : Call → Uri
  | .note uri _ _ _ => uri
  | .upgrade uri _ => uri

def Call.body : Call → StoreProgram (Option Uri)
  | .note uri headers secure now => (Hsts.note uri headers secure now).bind fun _ => .done none
  | .upgrade uri now => Hsts.upgrade uri now

/-- Requests over one store; a call is started with the clock's reading. -/
def requests : System Call KvCall KvCall.Answer (Option Uri) Shared where
  body := Call.body
  enter call s := if s.clock ≤ call.startedAt then some { s with clock := call.startedAt } else none
  handle op s := ((KvCall.handle op s.kv).1, { s with kv := (KvCall.handle op s.kv).2 })

abbrev Requests := Pool Nat Call KvCall KvCall.Answer (Option Uri) Shared
abbrev RequestLabel := Label Nat Call

def Requests.start (kv : Memory) (clock : SystemTime) : Requests := ⟨⟨kv, clock⟩, fun _ => none⟩

/-- The step is not taken by a note for `d`. -/
def NotNoting (d : Text) (s : Requests) : RequestLabel → Prop
  | .start _ _ => True
  | .advance i => ∀ call ∈ s.aboutOf i, ∀ n ∈ call.accepted, n.1 ≠ d

instance (d : Text) (s : Requests) (l : RequestLabel) : Decidable (NotNoting d s l) := by
  cases l <;> unfold NotNoting <;> infer_instance

/-- Once a note with a positive `max-age` has completed, an upgrade of its host that starts
later and before the policy's expiry answers, unless another note for the host comes in
between the two. -/
def KeepsNotes (s₀ : Requests) (labels : List RequestLabel) : Prop :=
  ∀ before n middle u uri now waiting rest,
    labels = before ++ .advance n ::
      (middle ++ .start u (.upgrade uri now) :: waiting) ++ .advance u :: rest →
    ∀ s₁ s₂ s₃ call d directives t host a,
      requests.run s₀ before = some s₁ →
      requests.run s₁ [.advance n] = some s₂ →
      requests.run s₂ ((middle ++ .start u (.upgrade uri now) :: waiting) ++ .advance u :: rest) =
        some s₃ →
      s₁.aboutOf n = some call → s₂.resultOf n = some none →
      call.accepted = some (d, directives, t) → 0 < directives.maxAge →
      uri.scheme = some .http → uri.host = some host → isIpLiteral host = false →
      d = Text.toAsciiLowercase host → now < policyExpiry t directives.maxAge →
      requests.Always (NotNoting d) s₂ (middle ++ .start u (.upgrade uri now) :: waiting) →
      s₃.resultOf u = some a → a.isSome

/-- The key a task is about to remove. -/
def Requests.removing (s : Requests) (i : Nat) : Option Text :=
  match s.task i with
  | some ⟨_, .call (.remove key) _⟩ => some key
  | _ => none

/-- The condition on a step. A remove meets under its key only values it is meant for: a
lookup's eviction only policies expired for it and for every lookup of theirs under way, a
note's only its own host's. And no call is for a host of no length. -/
def Careful (s : Requests) : RequestLabel → Prop
  | .start _ call => call.uri.host ≠ some []
  | .advance i => ∀ about ∈ s.aboutOf i, ∀ key ∈ s.removing i,
      ∀ slot ∈ s.shared.kv.slots ns key, ∀ e ∈ decode slot.value,
        (∀ n ∈ about.accepted, n.1 = e.domain) ∧
        (∀ l ∈ about.lookup, e.expiresAt ≤ l.2 ∧
          ∀ j other, s.task j = some other → other.rest.result = none →
            ∀ l' ∈ other.about.lookup, e.domain ∈ candidateDomains l'.1 → e.expiresAt ≤ l'.2)

/-! ## What the tasks do -/

/-- The calls a task makes: a note or a lookup removes, and neither clears the store. -/
def MayCall (about : Call) : KvCall → Prop
  | .getMany _ => True
  | .put _ _ => True
  | .remove _ => about.accepted.isSome ∨ about.lookup.isSome
  | .clear => False

theorem removeAll_within {about : Call} (looks : about.lookup.isSome) (domains : List Text) :
    (removeAll domains).Within (MayCall about) fun _ => True := by
  induction domains with
  | nil => exact trivial
  | cons d domains ih => exact ⟨.inr looks, fun _ => ih⟩

theorem body_within (about : Call) : about.body.Within (MayCall about) fun _ => True := by
  cases about with
  | note uri headers secure now =>
      refine Program.Within.bind (Q := fun _ => True) ?_ fun _ _ => trivial
      unfold note
      cases ha : asserted uri headers secure with
      | none => exact trivial
      | some pair =>
          obtain ⟨d, directives⟩ := pair
          have accepts : (Call.note uri headers secure now).accepted.isSome := by
            simp [Call.accepted, ha]
          simp only
          split
          · exact ⟨.inl accepts, fun _ => trivial⟩
          · exact ⟨.inl accepts, fun _ => ⟨trivial, fun _ => trivial⟩⟩
  | upgrade uri now =>
      change (upgrade uri now).Within _ _
      rw [upgrade_eq]
      cases hl : lookedUp uri with
      | none => exact trivial
      | some host =>
          have looks : (Call.upgrade uri now).lookup.isSome := by simp [Call.lookup, hl]
          refine Program.Within.bind (Q := fun _ => True) ?_ fun known _ => ?_
          · exact ⟨trivial, fun found => (removeAll_within looks _).bind fun _ _ => trivial⟩
          · cases known <;> exact trivial

theorem mayCall_of_residual {s : Requests} (residual : requests.Residual s) {i : Nat}
    {about : Call} {op : KvCall} {next : op.Answer → StoreProgram (Option Uri)}
    (here : s.task i = some ⟨about, .call op next⟩) : MayCall about op := by
  obtain ⟨t, steps⟩ := residual i _ here
  exact ((body_within about).steps steps).1

/-- Every task was started by the clock's time. -/
def StartedByClock (s : Requests) : Prop :=
  ∀ i task, s.task i = some task → task.about.startedAt ≤ s.shared.clock

theorem startedByClock_step {s s' : Requests} {l : RequestLabel} (h : StartedByClock s)
    (stepped : requests.step s l = some s') :
    StartedByClock s' ∧ s.shared.clock ≤ s'.shared.clock := by
  cases l with
  | start i call =>
      obtain ⟨-, shared, entered, rfl⟩ := System.step_start stepped
      simp only [requests, Option.ite_none_right_eq_some, Option.some.injEq] at entered
      obtain ⟨later, rfl⟩ := entered
      exact ⟨Pool.forall_put (SystemTime.le_refl _) fun j task there =>
        SystemTime.le_trans (h j task there) later, later⟩
  | advance i =>
      obtain ⟨about, op, next, here, rfl⟩ := System.step_advance stepped
      have started : about.startedAt ≤ s.shared.clock := h i _ here
      exact ⟨Pool.forall_put started h, SystemTime.le_refl _⟩

theorem lookup_startedAt {call : Call} {l : Text × SystemTime} (h : call.lookup = some l) :
    l.2 = call.startedAt := by
  cases call with
  | note uri headers secure now => cases h
  | upgrade uri now =>
      obtain ⟨host, -, rfl⟩ := Option.map_eq_some_iff.mp h
      rfl

/-! ## A stored policy -/

/-- The policy's bytes stand under its name's key. -/
def Stored (entry : Entry) (kv : Memory) : Prop :=
  ⟨encode entry, none⟩ ∈ kv.slots ns (reverseLabels entry.domain)

theorem stored_put (entry : Entry) (kv : Memory) : Stored entry
    (kv.put ns (reverseLabels entry.domain) (encode entry) none SystemTime.unixEpoch) := by
  unfold Stored
  rw [MemoryStore.slots_put, if_pos rfl]
  simp

theorem stored_handle {entry : Entry} {kv : Memory} (h : Stored entry kv) {op : KvCall}
    (keeps : op ≠ .remove (reverseLabels entry.domain)) (noclear : op ≠ .clear) :
    Stored entry (KvCall.handle op kv).2 := by
  cases op with
  | getMany keys => exact h
  | put key value =>
      unfold Stored at h ⊢
      rw [KvCall.handle, MemoryStore.slots_put]
      split
      · rename_i same
        rw [same] at h
        simp [h, Slot.isLive]
      · exact h
  | remove key =>
      unfold Stored at h ⊢
      have other : reverseLabels entry.domain ≠ key := fun same => keeps (by rw [same])
      rw [KvCall.handle, MemoryStore.slots_remove, if_neg other]
      exact h
  | clear => exact absurd rfl noclear

/-- What a careful step that is no note for the name leaves: the policy, or a lookup under way
that found it expired. -/
theorem stored_step {entry : Entry} (named : entry.domain ≠ []) {s s' : Requests}
    {l : RequestLabel} (residual : requests.Residual s) (careful : Careful s l)
    (other : NotNoting entry.domain s l) (stepped : requests.step s l = some s')
    (h : Stored entry s.shared.kv) :
    Stored entry s'.shared.kv ∨
      ∃ i task look, l = .advance i ∧ s.task i = some task ∧ task.about.lookup = some look ∧
        keptExpiry entry.expiresAt ≤ look.2 ∧
        ∀ j other, s.task j = some other → other.rest.result = none →
          ∀ look', other.about.lookup = some look' →
            entry.domain ∈ candidateDomains look'.1 → keptExpiry entry.expiresAt ≤ look'.2 := by
  cases l with
  | start i call =>
      obtain ⟨-, shared, entered, rfl⟩ := System.step_start stepped
      simp only [requests, Option.ite_none_right_eq_some, Option.some.injEq] at entered
      obtain ⟨-, rfl⟩ := entered
      exact .inl h
  | advance i =>
      obtain ⟨about, op, next, here, rfl⟩ := System.step_advance stepped
      have may := mayCall_of_residual residual here
      by_cases removes : op = .remove (reverseLabels entry.domain)
      · subst removes
        have read := decode_encode entry
        rw [if_neg named] at read
        have noting : s.aboutOf i = some about := by simp [Pool.aboutOf, here]
        have removing : s.removing i = some (reverseLabels entry.domain) := by
          simp [Requests.removing, here]
        obtain ⟨own, expired⟩ := careful about noting _ removing _ h _ read
        right
        rcases may with accepts | looks
        · obtain ⟨n, accepted⟩ := Option.isSome_iff_exists.mp accepts
          exact absurd (own n accepted) (other about noting n accepted)
        · obtain ⟨look, looked⟩ := Option.isSome_iff_exists.mp looks
          obtain ⟨past, others⟩ := expired look looked
          exact ⟨i, _, look, rfl, here, looked, past, others⟩
      · left
        refine stored_handle h removes ?_
        rintro rfl
        exact may

/-! ## The lookup -/

theorem removeAll_within_any (domains : List Text) :
    (removeAll domains).Within (fun _ => True) fun _ => True := by
  induction domains with
  | nil => exact trivial
  | cons d domains ih => exact ⟨trivial, fun _ => ih⟩

/-- A lookup that has yet to read meets the policy where it is kept unexpired. -/
theorem covered_of_stored {entry : Entry} {kv : Memory} {host : Text} {now : SystemTime}
    (h : Stored entry kv) (named : entry.domain ≠ []) (own : entry.domain = host.toAsciiLowercase)
    (live : now < keptExpiry entry.expiresAt) :
    isCovered (candidateDomains host)
      (((kv.getMany ns ((candidateDomains host).map reverseLabels) SystemTime.unixEpoch).flatten).filterMap
        decode) now := by
  have read := decode_encode entry
  rw [if_neg named] at read
  have bytes : encode entry ∈ kv.readOne ns (reverseLabels entry.domain) SystemTime.unixEpoch := by
    refine List.mem_map.mpr ⟨⟨encode entry, none⟩, List.mem_filter.mpr ⟨h, rfl⟩, rfl⟩
  simp only [isCovered, List.any_eq_true, List.mem_filterMap, List.mem_flatten]
  refine ⟨_, ⟨encode entry, ⟨_, ?_, bytes⟩, read⟩, ?_⟩
  · simp only [MemoryStore.getMany, List.map_map, List.mem_map, Function.comp_apply]
    exact ⟨entry.domain, by simp [candidateDomains, own], rfl⟩
  · simp [SystemTime.not_le.mpr live, candidateDomains, own]

/-- An upgrade under way before its read, and the policy kept for it, or one that can only
answer. -/
def WillAnswer (entry : Entry) (u : Nat) (uri : Uri) (now : SystemTime) (s : Requests) : Prop :=
  ∃ left, s.task u = some ⟨.upgrade uri now, left⟩ ∧
    ((left = upgrade uri now ∧ Stored entry s.shared.kv) ∨
      left.Within (fun _ => True) fun a => a.isSome)

def OnlyAnswers (u : Nat) (uri : Uri) (now : SystemTime) (s : Requests) : Prop :=
  ∃ left, s.task u = some ⟨.upgrade uri now, left⟩ ∧
    left.Within (fun _ => True) fun a => a.isSome

theorem onlyAnswers_step {u : Nat} {uri : Uri} {now : SystemTime} {s s' : Requests}
    {l : RequestLabel} (h : OnlyAnswers u uri now s) (stepped : requests.step s l = some s') :
    OnlyAnswers u uri now s' := by
  obtain ⟨left, there, within⟩ := h
  cases l with
  | start i call =>
      obtain ⟨free, shared, -, rfl⟩ := System.step_start stepped
      refine ⟨left, ?_, within⟩
      rw [Pool.put_task_of_ne, there]
      intro same
      rw [same, free] at there
      cases there
  | advance i =>
      obtain ⟨about, op, next, here, rfl⟩ := System.step_advance stepped
      by_cases same : u = i
      · subst same
        rw [there] at here
        cases here
        exact ⟨_, Pool.put_task_self .., within.2 _⟩
      · exact ⟨left, by rw [Pool.put_task_of_ne _ same, there], within⟩

section Upgrade
variable {entry : Entry} {u : Nat} {uri : Uri} {host : Text} {now : SystemTime}
  (http : uri.scheme = some .http) (hosted : uri.host = some host)
  (name : isIpLiteral host = false)
include http hosted name

theorem upgrade_under_way (now : SystemTime) :
    (upgrade uri now).result = none ∧ (Call.upgrade uri now).lookup = some (host, now) := by
  have looked : lookedUp uri = some host := by simp [lookedUp, http, hosted, name]
  constructor
  · rw [upgrade_eq, looked]
    rfl
  · simp [Call.lookup, looked]

variable (named : entry.domain ≠ []) (own : entry.domain = host.toAsciiLowercase)
  (live : now < keptExpiry entry.expiresAt)
include named own live

/-- The read of an upgrade whose policy is stored settles its answer. -/
theorem willAnswer_reads {s s' : Requests} (h : WillAnswer entry u uri now s)
    (stepped : requests.step s (.advance u) = some s') : OnlyAnswers u uri now s' := by
  obtain ⟨left, there, ⟨rfl, stored⟩ | within⟩ := h
  · have looked : lookedUp uri = some host := by simp [lookedUp, http, hosted, name]
    have hostNamed : host ≠ [] := by
      intro empty
      rw [own, empty] at named
      exact named rfl
    have rebuilt : (upgraded uri).isSome := by
      obtain ⟨authority, ha, rfl⟩ := Option.map_eq_some_iff.mp hosted
      simp [upgraded, ha, hostNamed]
    have covered := covered_of_stored stored named own live
    obtain ⟨about, op, next, here, rfl⟩ := System.step_advance stepped
    rw [there, upgrade_eq, looked] at here
    cases here
    refine ⟨_, Pool.put_task_self .., ?_⟩
    refine Program.Within.bind (Q := fun known => known = true) ?_ ?_
    · exact (removeAll_within_any _).bind fun _ _ => covered
    · intro known isKnown
      rw [if_pos isKnown]
      exact rebuilt
  · exact onlyAnswers_step ⟨left, there, within⟩ stepped

theorem willAnswer_step {s s' : Requests} {l : RequestLabel} (residual : requests.Residual s)
    (careful : Careful s l) (other : NotNoting entry.domain s l)
    (h : WillAnswer entry u uri now s) (stepped : requests.step s l = some s') :
    WillAnswer entry u uri now s' := by
  obtain ⟨left, there, ⟨rfl, stored⟩ | within⟩ := h
  · by_cases own' : l = .advance u
    · subst own'
      obtain ⟨left', there', within⟩ := willAnswer_reads http hosted name named own live
        ⟨_, there, .inl ⟨rfl, stored⟩⟩ stepped
      exact ⟨left', there', .inr within⟩
    · obtain ⟨waiting, looked⟩ := upgrade_under_way http hosted name now
      have kept : Stored entry s'.shared.kv := by
        rcases stored_step named residual careful other stepped stored with
          kept | ⟨i, task, look, -, -, -, -, others⟩
        · exact kept
        · have member : entry.domain ∈ candidateDomains host := by
            simp [candidateDomains, own]
          have past := others u _ there waiting _ looked member
          exact absurd live (SystemTime.not_lt.mpr past)
      refine ⟨_, ?_, .inl ⟨rfl, kept⟩⟩
      cases l with
      | start i call =>
          obtain ⟨free, shared, -, rfl⟩ := System.step_start stepped
          rw [Pool.put_task_of_ne, there]
          intro same
          rw [same, free] at there
          cases there
      | advance i =>
          obtain ⟨about, op, next, -, rfl⟩ := System.step_advance stepped
          rw [Pool.put_task_of_ne, there]
          intro same
          exact own' (by rw [same])
  · obtain ⟨left', there', within'⟩ := onlyAnswers_step ⟨left, there, within⟩ stepped
    exact ⟨left', there', .inr within'⟩

end Upgrade

/-! ## Runs -/

/-- The step that completes a note with a positive `max-age` writes its policy. -/
theorem stored_of_completed {s s' : Requests} (residual : requests.Residual s) {n : Nat}
    {call : Call} {d : Text} {directives : Directives} {t : SystemTime}
    (stepped : requests.step s (.advance n) = some s') (there : s.aboutOf n = some call)
    (completed : s'.resultOf n = some none) (accepted : call.accepted = some (d, directives, t))
    (positive : 0 < directives.maxAge) :
    Stored ⟨d, expiryOf t directives.maxAge, directives.includeSubdomains⟩ s'.shared.kv := by
  obtain ⟨about, op, next, here, rfl⟩ := System.step_advance stepped
  have same : about = call := by simpa [Pool.aboutOf, here] using there
  subst same
  have ended : next (requests.handle op s.shared).1 = .done none := by
    simpa [Pool.resultOf, Program.result_eq_some] using completed
  obtain ⟨trace, steps⟩ := residual n _ here
  cases about with
  | upgrade uri now => cases accepted
  | note uri headers secure now =>
      obtain ⟨⟨d', directives'⟩, ha, same⟩ := Option.map_eq_some_iff.mp accepted
      cases same
      have nonzero : directives.maxAge ≠ 0 := Nat.pos_iff_ne_zero.mp positive
      have body : (Call.note uri headers secure t).body =
          .call (.remove (reverseLabels d)) fun _ =>
            .call (.put (reverseLabels d) (encode ⟨d, expiryOf t directives.maxAge,
              directives.includeSubdomains⟩)) fun _ => .done none := by
        simp only [Call.body, note, ha, if_neg nonzero]
        rfl
      change (Call.note uri headers secure t).body.Steps _ _ at steps
      rw [body] at steps
      generalize last : Program.call op next = final at steps
      cases steps with
      | refl =>
          -- the remove alone does not complete it
          cases last
          cases ended
      | step r rest =>
          cases rest with
          | refl =>
              cases last
              exact stored_put ⟨d, expiryOf t directives.maxAge, directives.includeSubdomains⟩ _
          | step r' rest =>
              obtain ⟨-, past⟩ := rest.done_inv
              rw [← last] at past
              cases past

/-- What a run keeps between the note and the upgrade: the policy, or a clock past it. -/
def KeptOrPast (entry : Entry) (s : Requests) : Prop :=
  requests.Residual s ∧ StartedByClock s ∧
    (Stored entry s.shared.kv ∨ keptExpiry entry.expiresAt ≤ s.shared.clock)

theorem keptOrPast_step {entry : Entry} (named : entry.domain ≠ []) (s : Requests)
    (l : RequestLabel) (s' : Requests) (ok : Careful s l ∧ NotNoting entry.domain s l)
    (h : KeptOrPast entry s) (stepped : requests.step s l = some s') : KeptOrPast entry s' := by
  obtain ⟨residual, started, kept⟩ := h
  obtain ⟨started', later⟩ := startedByClock_step started stepped
  refine ⟨System.residual_step residual stepped, started', ?_⟩
  rcases kept with stored | past
  · rcases stored_step named residual ok.1 ok.2 stepped stored with
      stored | ⟨i, task, look, -, there, looked, past, -⟩
    · exact .inl stored
    · have started := started i task there
      rw [lookup_startedAt looked] at past
      exact .inr (SystemTime.le_trans past (SystemTime.le_trans started later))
  · exact .inr (SystemTime.le_trans past later)

theorem residual_start (kv : Memory) (clock : SystemTime) :
    requests.Residual (Requests.start kv clock) := by
  intro i task there
  cases there

theorem startedByClock_start (kv : Memory) (clock : SystemTime) :
    StartedByClock (Requests.start kv clock) := by
  intro i task there
  cases there

theorem underWay_step (s : Requests) (l : RequestLabel) (s' : Requests) (_ : Careful s l)
    (h : requests.Residual s ∧ StartedByClock s) (stepped : requests.step s l = some s') :
    requests.Residual s' ∧ StartedByClock s' :=
  ⟨System.residual_step h.1 stepped, (startedByClock_step h.2 stepped).1⟩

/-- In a run of careful steps no lookup's eviction takes a fresher policy. -/
theorem careful_run_keepsNotes (kv : Memory) (clock : SystemTime) (labels : List RequestLabel)
    (careful : requests.Always Careful (Requests.start kv clock) labels) :
    KeepsNotes (Requests.start kv clock) labels := by
  intro before n middle u uri now waiting rest split s₁ s₂ s₃ call d directives t host a
    reached completing finishing there completed accepted positive http hosted name own live
    undisturbed answered
  subst split
  rw [System.run_singleton] at completing
  let entry : Entry := ⟨d, expiryOf t directives.maxAge, directives.includeSubdomains⟩
  have carefulUpTo := careful.append.1.append
  have carefulBetween := (carefulUpTo.2 s₁ reached).2 s₂ completing
  -- up to the completion: what is under way, and the policy it writes
  have early : requests.Residual s₁ ∧ StartedByClock s₁ :=
    System.run_preserves underWay_step carefulUpTo.1
      ⟨residual_start kv clock, startedByClock_start kv clock⟩ reached
  have stored : Stored entry s₂.shared.kv :=
    stored_of_completed early.1 completing there completed accepted positive
  obtain ⟨s₄, between, final⟩ := System.run_append_some finishing
  obtain ⟨s₅, between, started⟩ := System.run_append_some between
  obtain ⟨s₆, started, waited⟩ := System.run_cons_some started
  obtain ⟨s₇, read, final⟩ := System.run_cons_some final
  have both := (carefulBetween.and undisturbed).append
  have atStart := both.2 s₅ between
  have named : entry.domain ≠ [] := by
    intro empty
    have lowered : host.toAsciiLowercase = [] := by rw [← own]; exact empty
    rw [Text.toAsciiLowercase_eq_nil] at lowered
    exact atStart.1.1 (by rw [← lowered]; exact hosted)
  -- between the note and the upgrade
  have kept : KeptOrPast entry s₅ :=
    System.run_preserves (keptOrPast_step named) both.1
      ⟨System.residual_step early.1 completing, (startedByClock_step early.2 completing).1,
        .inl stored⟩ between
  -- the upgrade starts before the expiry, so the clock has not passed it
  have begun : WillAnswer entry u uri now s₆ := by
    obtain ⟨-, shared, entered, rfl⟩ := System.step_start started
    simp only [requests, Option.ite_none_right_eq_some, Option.some.injEq] at entered
    obtain ⟨later, rfl⟩ := entered
    refine ⟨_, Pool.put_task_self .., .inl ⟨rfl, ?_⟩⟩
    rcases kept.2.2 with stored | past
    · exact stored
    · exact absurd live (SystemTime.not_lt.mpr (SystemTime.le_trans past later))
  have waitingStep : ∀ (s : Requests) (l : RequestLabel) (s' : Requests),
      Careful s l ∧ NotNoting d s l → requests.Residual s ∧ WillAnswer entry u uri now s →
      requests.step s l = some s' → requests.Residual s' ∧ WillAnswer entry u uri now s' := by
    intro s l s' ok h stepped
    exact ⟨System.residual_step h.1 stepped,
      willAnswer_step http hosted name named own live h.1 ok.1 ok.2 h.2 stepped⟩
  have waiting : requests.Residual s₄ ∧ WillAnswer entry u uri now s₄ :=
    System.run_preserves waitingStep (atStart.2 s₆ started)
      ⟨System.residual_step kept.1 started, begun⟩ waited
  have answers : OnlyAnswers u uri now s₃ :=
    System.run_preserves (fun s l s' _ h stepped => onlyAnswers_step h stepped)
      (System.always_true _ _)
      (willAnswer_reads http hosted name named own live waiting.2 read) final
  obtain ⟨left, there, within⟩ := answers
  have ended : left = .done a := by
    simpa [Pool.resultOf, there, Program.result_eq_some] using answered
  rw [ended] at within
  exact within

/-- A step that removes nothing, taken for a host with a name. -/
def RemovesNothing (s : Requests) : RequestLabel → Prop
  | .start _ call => call.uri.host ≠ some []
  | .advance i => ∀ key ∈ s.removing i, (s.shared.kv.slots ns key).isEmpty

instance (s : Requests) (l : RequestLabel) : Decidable (RemovesNothing s l) := by
  cases l <;> unfold RemovesNothing <;> infer_instance

theorem careful_of_removesNothing (s : Requests) (l : RequestLabel) (h : RemovesNothing s l) :
    Careful s l := by
  cases l with
  | start i call => exact h
  | advance i =>
      intro about _ key removing slot member
      rw [List.isEmpty_iff.mp (h key removing)] at member
      cases member

def aTest (scheme : Scheme) : Uri := ⟨some scheme, some ⟨none, "a.test".toList, none⟩, none⟩

def noteOf (value : String) (now : SystemTime) : Call :=
  .note (aTest .https) [("strict-transport-security".toList, .ofAscii value)] true now

theorem careful_run_keepsNotes_hour :
    KeepsNotes (Requests.start MemoryStore.new ⟨0, by decide⟩)
      [.start 0 (noteOf "max-age=3600" ⟨0, by decide⟩), .advance 0, .advance 0,
        .start 1 (.upgrade (aTest .http) ⟨10000000000, by decide⟩), .advance 1] :=
  careful_run_keepsNotes _ _ _
    (System.Always.mono careful_of_removesNothing (by decide +kernel))

/-- Two lookups and two notes of `a.test`, up to the last call of the second note. -/
def evictionBefore : List RequestLabel :=
  [.start 0 (noteOf "max-age=1" .unixEpoch), .advance 0, .advance 0,
    -- the lookup reads the first policy expired
    .start 1 (.upgrade (aTest .http) ⟨2000000000, by decide⟩), .advance 1,
    .start 2 (noteOf "max-age=3600" ⟨2000000000, by decide⟩), .advance 2]

def secondUpgrade : Call := .upgrade (aTest .http) ⟨3000000000, by decide⟩

/-- A lookup that read an expired policy evicts the one a note has put in its place. -/
theorem eviction_takes_fresh_policy :
    ¬ KeepsNotes (Requests.start MemoryStore.new ⟨0, by decide⟩)
      (evictionBefore ++ .advance 2 :: [.advance 1, .start 3 secondUpgrade] ++ [.advance 3]) := by
  intro keeps
  have answer := keeps evictionBefore 2 [.advance 1] 3 (aTest .http) ⟨3000000000, by decide⟩
    [] [] rfl _ _ _ (noteOf "max-age=3600" ⟨2000000000, by decide⟩) "a.test".toList ⟨3600, false⟩
    ⟨2000000000, by decide⟩ "a.test".toList none
    (System.run_eq_after (by decide +kernel)) (System.run_eq_after (by decide +kernel))
    (System.run_eq_after (by decide +kernel)) (by decide +kernel) (by decide +kernel)
    (by decide) (by decide) rfl rfl (by decide) (by decide) (by decide)
    (by decide +kernel) (by decide +kernel)
  cases answer

end HClient.Hsts
