import HClient.Body.Chain

/-!
# Polls of what a deadline bounds

What a poll of a recorded body and of a deadline around it can do, said once for each.
-/
namespace HClient.Body

open Native

/-- Where the body comes from. -/
inductive Origin where
  | live
  | store (bytes : List UInt8)
  | recorded (maxBodyBytes : Nat)

def Origin.cached : Origin → Cached
  | .live => .live
  | .store bytes => .fromStore bytes
  | .recorded maxBodyBytes => .recording maxBodyBytes

variable {t : Transport} {w : Waker} {m : Moment}

namespace Cached

/-- What a body under a deadline can look like, where `recorded` is whether it may be recorded. -/
inductive Shape (t : Transport) (recorded : Prop) : Cached → Prop where
  | stored (bytes : List UInt8) : Shape t recorded ⟨none, some bytes, none, none⟩
  | gone : Shape t recorded ⟨none, none, none, none⟩
  | plain (i : Nat) : Shape t recorded ⟨some i, none, none, none⟩
  | teed (i : Nat) (r : Recorder) (may : recorded) : Shape t recorded ⟨some i, none, some r, none⟩
  | writing {i : Nat} (bytes : List UInt8) (may : recorded) (ended : t.answer i = .ended) :
      Shape t recorded ⟨some (i + 1), none, none, some bytes⟩

/-- What a poll makes of each of them. -/
inductive Step (t : Transport) (w : Waker) (m : Moment) :
    Cached → Answer → Cached → List Call → Prop where
  | stored {bytes : List UInt8} (filled : bytes ≠ []) :
      Step t w m ⟨none, some bytes, none, none⟩ (.data bytes) ⟨none, none, none, none⟩ []
  | empty : Step t w m ⟨none, some [], none, none⟩ .ended ⟨none, none, none, none⟩ []
  | gone : Step t w m ⟨none, none, none, none⟩ .ended ⟨none, none, none, none⟩ []
  | passed (i : Nat) (recorder recorder' : Option Recorder)
      (fresh : recorder = none → recorder' = none) :
      Step t w m ⟨some i, none, recorder, none⟩ (t.answer i) ⟨some (i + 1), none, recorder', none⟩
        [.transport w m.elapsed]
  | stores {i : Nat} (r : Recorder) (ended : t.answer i = .ended) :
      Step t w m ⟨some i, none, some r, none⟩ .ended ⟨some (i + 1), none, none, none⟩
        [.transport w m.elapsed, .write w]
  | writes {i : Nat} (r : Recorder) (ended : t.answer i = .ended) :
      Step t w m ⟨some i, none, some r, none⟩ .pending ⟨some (i + 1), none, none, some r.buffered⟩
        [.transport w m.elapsed, .write w]
  | wrote (i : Nat) (bytes : List UInt8) :
      Step t w m ⟨some (i + 1), none, none, some bytes⟩ .ended ⟨some (i + 1), none, none, none⟩
        [.write w]
  | waits (i : Nat) (bytes : List UInt8) :
      Step t w m ⟨some (i + 1), none, none, some bytes⟩ .pending
        ⟨some (i + 1), none, none, some bytes⟩ [.write w]

variable {b b' : Cached} {a : Answer} {calls : List Call} {recorded : Prop}

theorem step_of_pollFrame (shape : Shape t recorded b) (polled : b.pollFrame t w m = (a, b', calls)) :
    Step t w m b a b' calls := by
  cases shape with
  | stored bytes =>
      cases bytes <;> cases polled
      · exact .empty
      · exact .stored (List.cons_ne_nil _ _)
  | gone =>
      cases polled
      exact .gone
  | plain i =>
      cases met : t.answer i <;> simp [pollFrame, record, met] at polled <;>
        obtain ⟨rfl, rfl, rfl⟩ := polled <;> rw [← met] <;> exact .passed i none none id
  | teed i r may =>
      cases met : t.answer i with
      | ended =>
          cases write : m.written <;> simp [pollFrame, record, met, pollWrite, write] at polled <;>
            obtain ⟨rfl, rfl, rfl⟩ := polled
          · exact .writes r met
          · exact .stores r met
      | pending =>
          simp [pollFrame, record, met] at polled
          obtain ⟨rfl, rfl, rfl⟩ := polled
          exact met ▸ .passed i _ _ nofun
      | data =>
          simp [pollFrame, record, met] at polled
          obtain ⟨rfl, rfl, rfl⟩ := polled
          exact met ▸ .passed i _ _ nofun
      | trailers =>
          simp [pollFrame, record, met] at polled
          obtain ⟨rfl, rfl, rfl⟩ := polled
          exact met ▸ .passed i _ _ nofun
      | failed =>
          simp [pollFrame, record, met] at polled
          obtain ⟨rfl, rfl, rfl⟩ := polled
          exact met ▸ .passed i _ _ nofun
  | @writing i bytes may ended =>
      cases write : m.written <;> simp [pollFrame, pollWrite, write] at polled <;>
        obtain ⟨rfl, rfl, rfl⟩ := polled
      · exact .waits i bytes
      · exact .wrote i bytes

theorem Step.shape (step : Step t w m b a b' calls) (shape : Shape t recorded b) :
    Shape t recorded b' := by
  cases step with
  | stored => exact .gone
  | empty => exact .gone
  | gone => exact .gone
  | passed i recorder recorder' fresh =>
      cases recorder' with
      | none => exact .plain (i + 1)
      | some r =>
          cases shape with
          | plain => exact absurd (fresh rfl) nofun
          | teed _ _ may => exact .teed (i + 1) r may
  | stores => exact .plain _
  | writes r ended =>
      cases shape with
      | teed _ _ may => exact .writing r.buffered may ended
  | wrote => exact .plain _
  | waits => exact shape

theorem Step.right_calls (step : Step t w m b a b' calls) :
    ∀ call ∈ calls, call = .transport w m.elapsed ∨ call = .write w := by
  cases step <;> simp

/-- A poll that is pending has polled the transport's body, or the write it waits for. -/
theorem Step.pending (step : Step t w m b .pending b' calls) (shape : Shape t recorded b) :
    .transport w m.elapsed ∈ calls ∨
      (recorded ∧ .write w ∈ calls ∧ ∃ i, b'.inner = some (i + 1) ∧ t.answer i = .ended) := by
  generalize same : Answer.pending = a at step
  cases step with
  | passed => exact .inl (.head _)
  | writes => exact .inl (.head _)
  | waits i bytes =>
      cases shape with
      | writing _ may ended => exact .inr ⟨may, .head _, i, rfl, ended⟩
  | stored => cases same
  | empty => cases same
  | gone => cases same
  | stores => cases same
  | wrote => cases same

/-- No frame is to come. -/
def Finished (t : Transport) (b : Cached) : Prop :=
  b.stored = none ∧ ∀ i ∈ b.inner, ∀ j, i ≤ j → (t.answer j).isFrame = false

theorem finished_of_isEndStream (said : b.isEndStream t = true) : b.Finished t := by
  rcases b with ⟨_ | i, _ | bytes, recorder, committing⟩
  · exact ⟨rfl, nofun⟩
  · cases said
  · refine ⟨rfl, fun i' same j after => ?_⟩
    cases same
    exact t.no_frame_after_end i j said after
  · cases said

theorem Step.finished (step : Step t w m b a b' calls) (finished : b.Finished t) :
    a.isFrame = false ∧ b'.Finished t := by
  obtain ⟨spent, quiet⟩ := finished
  have still : ∀ i, b.inner = some i → Finished t ⟨some (i + 1), none, b'.recorder, b'.committing⟩ :=
    fun i at_ => ⟨rfl, fun _ same j after => quiet i at_ j (by cases same; omega)⟩
  cases step with
  | stored => cases spent
  | empty => cases spent
  | gone => exact ⟨rfl, rfl, nofun⟩
  | passed i => exact ⟨quiet i rfl i (Nat.le_refl i), still i rfl⟩
  | @stores i => exact ⟨rfl, still i rfl⟩
  | @writes i => exact ⟨rfl, still i rfl⟩
  | wrote => exact ⟨rfl, rfl, quiet⟩
  | waits => exact ⟨rfl, rfl, quiet⟩

abbrev Answers (t : Transport) (b : Cached) (a : Answer) (b' : Cached) : Prop :=
  ∃ w m calls, b.pollFrame t w m = (a, b', calls)

theorem ends_ended {i n : Nat} (ended : t.answer i = .ended) (ends : Ends t.Answers i n) :
    n = 0 := by
  cases ends with
  | ended => rfl
  | goes first on =>
      obtain ⟨rfl, -⟩ := first
      rw [ended] at on
      cases on

/-- What is still to come, by where it comes from. -/
theorem ends_cases {n : Nat} (shape : Shape t recorded b) (ends : Ends (Answers t) b n) :
    (∀ i, b.inner = some i → Ends t.Answers i n) ∧
      (b.inner = none → n = (b.stored.getD []).length) := by
  induction ends with
  | ended last =>
      obtain ⟨w, m, calls, polled⟩ := last
      generalize same : Answer.ended = a at polled
      cases step_of_pollFrame shape polled with
      | stored => cases same
      | empty => exact ⟨nofun, fun _ => rfl⟩
      | gone => exact ⟨nofun, fun _ => rfl⟩
      | passed i => exact ⟨fun _ at_ => by cases at_; exact .ended ⟨same.symm, rfl⟩, nofun⟩
      | stores r ended => exact ⟨fun _ at_ => by cases at_; exact .ended ⟨ended, rfl⟩, nofun⟩
      | writes => cases same
      | waits => cases same
      | wrote i bytes =>
          cases shape with
          | writing _ _ ended =>
              exact ⟨fun _ at_ => by cases at_; exact .ended ⟨t.stays_ended i ended, rfl⟩, nofun⟩
  | @goes _ _ _ n first on rest ih =>
      obtain ⟨w, m, calls, polled⟩ := first
      have step := step_of_pollFrame shape polled
      obtain ⟨through, spent⟩ := ih (step.shape shape)
      cases step with
      | stored => exact ⟨nofun, fun _ => by rw [spent rfl]; rfl⟩
      | empty => cases on
      | gone => cases on
      | stores => cases on
      | wrote => cases on
      | passed i => exact ⟨fun _ at_ => by cases at_; exact .goes ⟨rfl, rfl⟩ on (through _ rfl), nofun⟩
      | writes r ended =>
          obtain rfl := ends_ended (t.stays_ended _ ended) (through _ rfl)
          exact ⟨fun _ at_ => by cases at_; exact .ended ⟨ended, rfl⟩, nofun⟩
      | waits i bytes =>
          have same : Answer.pending.bytes.length + n = n := Nat.zero_add n
          rw [same]
          exact ⟨through, nofun⟩

theorem sizeHint_contains {n : Nat} (shape : Shape t recorded b) (ends : Ends (Answers t) b n) :
    (b.sizeHint t).Contains n := by
  obtain ⟨through, spent⟩ := ends_cases shape ends
  cases shape with
  | stored bytes => exact SizeHint.withExact_contains.mpr (spent rfl).symm
  | gone => exact SizeHint.withExact_contains.mpr (spent rfl).symm
  | plain i => exact t.hint_contains i n (through i rfl)
  | teed i => exact t.hint_contains i n (through i rfl)
  | writing => exact t.hint_contains _ n (through _ rfl)

end Cached
namespace Deadline

/-- What a poll makes of a deadline: the clock or the sleep fires it, or the answer inside passes. -/
inductive Step (t : Transport) (w : Waker) (m : Moment) (b : Deadline) :
    Answer → Deadline → List Call → Prop where
  | late {total : Duration} (overran : b.overrun m.elapsed = some total) :
      Step t w m b (.failed (timedOut total)) { b with inner := none, sleep := none } [.expired]
  | dropped (gone : b.inner = none) : Step t w m b (.failed (timedOut (b.total.getD 0))) b []
  | passed {c c' : Cached} {a : Answer} {calls : List Call} (early : b.overrun m.elapsed = none)
      (inside : b.inner = some c) (polled : c.pollFrame t w m = (a, c', calls))
      (awake : a = .pending → b.sleep = none) :
      Step t w m b a { b with inner := some c' } calls
  | waits {c c' : Cached} {calls : List Call} {sleep : Sleep}
      (early : b.overrun m.elapsed = none) (inside : b.inner = some c)
      (polled : c.pollFrame t w m = (.pending, c', calls)) (sleeps : b.sleep = some sleep) :
      Step t w m b .pending { b with inner := some c' } (calls ++ [.sleep w sleep])
  | woken {c c' : Cached} {calls : List Call} {sleep : Sleep}
      (early : b.overrun m.elapsed = none) (inside : b.inner = some c)
      (polled : c.pollFrame t w m = (.pending, c', calls)) (sleeps : b.sleep = some sleep) :
      Step t w m b (.failed (timedOut (b.total.getD 0))) { b with inner := none, sleep := none }
        (calls ++ [.sleep w sleep] ++ [.expired])

variable {b b' : Deadline} {a : Answer} {calls : List Call} {recorded : Prop} {asked : Duration}
  {total : Option Duration}

theorem step_of_pollFrame (polled : b.pollFrame t w m = (a, b', calls)) :
    Step t w m b a b' calls := by
  rcases b with ⟨inner, bound, sleep⟩
  rcases early : overrun ⟨inner, bound, sleep⟩ m.elapsed with _ | total
  · cases inner with
    | none =>
        simp only [pollFrame, early] at polled
        cases polled
        exact .dropped rfl
    | some c =>
        rcases here : c.pollFrame t w m with ⟨met, c', made⟩
        cases sleep with
        | none =>
            simp only [pollFrame, early, here] at polled
            cases polled
            exact .passed early rfl here fun _ => rfl
        | some sleep =>
            by_cases waiting : met = .pending
            · subst waiting
              simp only [pollFrame, early, here] at polled
              split at polled
              · cases polled
                exact .woken early rfl here rfl
              · cases polled
                exact .waits early rfl here rfl
            · have passes : (met, (⟨some c', bound, some sleep⟩ : Deadline), made) =
                  (a, b', calls) := by
                rw [← polled]
                cases met <;> first
                  | exact absurd rfl waiting
                  | simp only [pollFrame, early, here]
              cases passes
              exact .passed early rfl here fun same => absurd same waiting
  · simp only [pollFrame, early, fire] at polled
    cases polled
    exact .late early

/-- What a deadline of `total`, asked for at the reading `asked`, holds until it is dropped. -/
structure Held (t : Transport) (recorded : Prop) (asked : Duration) (total : Option Duration)
    (b : Deadline) : Prop where
  bound : b.total = total
  shape : ∀ c ∈ b.inner, c.Shape t recorded
  sleeps : b.inner ≠ none → b.sleep = total.map fun total => ⟨asked, total - asked⟩

theorem held_new {c : Cached} (shape : c.Shape t recorded) :
    Held t recorded asked total (.new c asked total) where
  bound := rfl
  shape := by
    rintro c' same
    cases same
    exact shape
  sleeps _ := rfl

theorem Step.held (step : Step t w m b a b' calls) (held : Held t recorded asked total b) :
    Held t recorded asked total b' := by
  have goes : ∀ c c' a calls, b.inner = some c → c.pollFrame t w m = (a, c', calls) →
      Held t recorded asked total { b with inner := some c' } := by
    intro c c' a calls inside polled
    have shape := held.shape c inside
    refine ⟨held.bound, fun c'' same => ?_, fun _ => held.sleeps (by rw [inside]; exact nofun)⟩
    cases same
    exact (Cached.step_of_pollFrame shape polled).shape shape
  cases step with
  | late => exact ⟨held.bound, nofun, absurd rfl⟩
  | dropped => exact held
  | passed _ inside polled => exact goes _ _ _ _ inside polled
  | waits _ inside polled => exact goes _ _ _ _ inside polled
  | woken => exact ⟨held.bound, nofun, absurd rfl⟩

/-- The transport's body is polled only at readings before the deadline. -/
theorem Step.in_time (step : Step t w m b a b' calls) (held : Held t recorded asked total b) :
    ∀ call ∈ calls, ∀ w' elapsed, call = .transport w' elapsed → ∀ T ∈ total, elapsed < T := by
  have inner : ∀ c c' a made, b.overrun m.elapsed = none → b.inner = some c →
      c.pollFrame t w m = (a, c', made) →
      ∀ call ∈ made, ∀ w' elapsed, call = .transport w' elapsed → ∀ T ∈ total, elapsed < T := by
    rintro c c' a made early inside polled call member w' elapsed rfl T same
    rcases (Cached.step_of_pollFrame (held.shape c inside) polled).right_calls _ member with h | h
    · cases h
      have bounded : b.total = some T := held.bound.trans same
      simp only [overrun, bounded, Option.bind_some, ite_eq_right_iff, reduceCtorEq,
        imp_false] at early
      exact Nat.lt_of_not_le early
    · cases h
  cases step with
  | late => simp
  | dropped => exact nofun
  | passed early inside polled => exact inner _ _ _ _ early inside polled
  | waits early inside polled =>
      exact List.forall_mem_append.mpr ⟨inner _ _ _ _ early inside polled, by simp⟩
  | woken early inside polled =>
      refine List.forall_mem_append.mpr ⟨List.forall_mem_append.mpr ?_, by simp⟩
      exact ⟨inner _ _ _ _ early inside polled, by simp⟩

theorem Step.pending (step : Step t w m b .pending b' calls)
    (held : Held t recorded asked total b) :
    (∀ T ∈ total, .sleep w ⟨asked, T - asked⟩ ∈ calls) ∧
      (.transport w m.elapsed ∈ calls ∨ (recorded ∧ .write w ∈ calls ∧
        ∃ i, b'.inner.bind Cached.inner = some (i + 1) ∧ t.answer i = .ended)) := by
  generalize same : Answer.pending = a at step
  cases step with
  | late => cases same
  | dropped => cases same
  | woken => cases same
  | passed _ inside polled awake =>
      subst same
      have shape := held.shape _ inside
      refine ⟨fun T bound => ?_, (Cached.step_of_pollFrame shape polled).pending shape⟩
      have sleeps := held.sleeps (by rw [inside]; exact nofun)
      rw [awake rfl, bound] at sleeps
      cases sleeps
  | waits _ inside polled sleeps =>
      have shape := held.shape _ inside
      refine ⟨fun T bound => ?_, ?_⟩
      · have held := held.sleeps (by rw [inside]; exact nofun)
        rw [sleeps, bound] at held
        cases held
        exact List.mem_append_right _ (.head _)
      · rcases (Cached.step_of_pollFrame shape polled).pending shape with h | ⟨may, wrote, ended⟩
        · exact .inl (List.mem_append_left _ h)
        · exact .inr ⟨may, List.mem_append_left _ wrote, ended⟩

theorem Held.not_fired (held : Held t recorded asked total b) {c c' : Cached}
    (inside : b.inner = some c) (polled : c.pollFrame t w m = (a, c', calls)) :
    ∀ call ∈ calls, call ≠ .expired ∧ call ≠ .exceeded := by
  intro call member
  rcases (Cached.step_of_pollFrame (held.shape c inside) polled).right_calls _ member with rfl | rfl
  · exact ⟨nofun, nofun⟩
  · exact ⟨nofun, nofun⟩

theorem Step.not_exceeded (step : Step t w m b a b' calls) (held : Held t recorded asked total b) :
    ∀ call ∈ calls, call ≠ .exceeded := by
  cases step with
  | late => simp
  | dropped => exact nofun
  | passed _ inside polled => exact fun call member => (held.not_fired inside polled call member).2
  | waits _ inside polled =>
      refine List.forall_mem_append.mpr ⟨fun call member => ?_, by simp⟩
      exact (held.not_fired inside polled call member).2
  | woken _ inside polled =>
      refine List.forall_mem_append.mpr ⟨List.forall_mem_append.mpr ⟨fun call member => ?_, by simp⟩,
        by simp⟩
      exact (held.not_fired inside polled call member).2

theorem Step.expired (step : Step t w m b a b' calls) (held : Held t recorded asked total b)
    (fired : .expired ∈ calls) : b'.inner = none := by
  cases step with
  | late => rfl
  | dropped gone => exact gone
  | passed _ inside polled => exact absurd rfl (held.not_fired inside polled _ fired).1
  | waits _ inside polled =>
      rcases List.mem_append.mp fired with inner | last
      · exact absurd rfl (held.not_fired inside polled _ inner).1
      · exact absurd last (by simp)
  | woken => rfl

/-- No frame is to come, whether it ended or has been dropped. -/
def Finished (t : Transport) (b : Deadline) : Prop := ∀ c ∈ b.inner, c.Finished t

theorem Step.finished (step : Step t w m b a b' calls) (held : Held t recorded asked total b)
    (finished : b.Finished t) : a.isFrame = false ∧ b'.Finished t := by
  have inner : ∀ c c' a made, b.inner = some c → c.pollFrame t w m = (a, c', made) →
      a.isFrame = false ∧ c'.Finished t := fun c c' a made inside polled =>
    (Cached.step_of_pollFrame (held.shape c inside) polled).finished (finished c inside)
  cases step with
  | late => exact ⟨rfl, nofun⟩
  | dropped => exact ⟨rfl, finished⟩
  | passed _ inside polled =>
      obtain ⟨quiet, done⟩ := inner _ _ _ _ inside polled
      exact ⟨quiet, fun c same => by cases same; exact done⟩
  | waits _ inside polled =>
      exact ⟨rfl, fun c same => by cases same; exact (inner _ _ _ _ inside polled).2⟩
  | woken => exact ⟨rfl, nofun⟩

theorem Step.stays_dropped (step : Step t w m b a b' calls) (gone : b.inner = none) :
    a.isFailed = true ∧ b'.inner = none := by
  cases step with
  | late => exact ⟨rfl, rfl⟩
  | dropped => exact ⟨rfl, gone⟩
  | passed _ inside => exact absurd (inside.symm.trans gone) nofun
  | waits _ inside => exact absurd (inside.symm.trans gone) nofun
  | woken => exact ⟨rfl, rfl⟩

theorem Step.inside (step : Step t w m b a b' calls) (sound : a.isFailed = false) :
    ∃ c c' made, b.inner = some c ∧ c.pollFrame t w m = (a, c', made) ∧ b'.inner = some c' := by
  cases step with
  | late => cases sound
  | dropped => cases sound
  | passed _ inside polled => exact ⟨_, _, _, inside, polled, rfl⟩
  | waits _ inside polled => exact ⟨_, _, _, inside, polled, rfl⟩
  | woken => cases sound

abbrev Answers (t : Transport) (b : Deadline) (a : Answer) (b' : Deadline) : Prop :=
  ∃ w m calls, b.pollFrame t w m = (a, b', calls)

theorem ends_inside {n : Nat} (ends : Ends (Answers t) b n) :
    ∃ c, b.inner = some c ∧ Ends (Cached.Answers t) c n := by
  induction ends with
  | ended last =>
      obtain ⟨w, m, calls, polled⟩ := last
      obtain ⟨c, c', made, inside, polled, -⟩ := (step_of_pollFrame polled).inside rfl
      exact ⟨c, inside, .ended ⟨w, m, made, polled⟩⟩
  | goes first on rest ih =>
      obtain ⟨w, m, calls, polled⟩ := first
      obtain ⟨c, c', made, inside, polled, inside'⟩ :=
        (step_of_pollFrame polled).inside (Answer.isFailed_of_isLast on)
      obtain ⟨c'', same, rest⟩ := ih
      obtain rfl := Option.some.inj (inside'.symm.trans same)
      exact ⟨c, inside, .goes ⟨w, m, made, polled⟩ on rest⟩

theorem sizeHint_contains {n : Nat} (held : Held t recorded asked total b)
    (ends : Ends (Answers t) b n) : (b.sizeHint t).Contains n := by
  obtain ⟨c, inside, ends⟩ := ends_inside ends
  rw [sizeHint, inside]
  exact Cached.sizeHint_contains (held.shape c inside) ends

theorem finished_of_isEndStream (said : b.isEndStream t = true) : b.Finished t := by
  intro c inside
  rw [isEndStream, inside] at said
  exact Cached.finished_of_isEndStream said

end Deadline

end HClient.Body
