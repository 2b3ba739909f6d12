import HClient.Connect.Scheduler
import HClient.Effect.Walk

/-!
# The race, whatever the streams and the attempts answer

Every address that a stream of its family delivers is attempted once and in its turn, and the race
fails only when all of them have failed. Of several errors of one stream the last is kept.
-/
namespace HClient.Connect
open Effect
open Native (Error ErrorKind ErrorSource ResolveErrors)

variable {S : Type}

section History
variable (f : Family)

def deliveredBy : Event S → List IpAddr
  | ⟨.pollNext g, .ready (some (.ok record))⟩ => if f = g then (record.addrOf f).toList else []
  | _ => []

def errorOf : Event S → List Error
  | ⟨.pollNext g, .ready (some (.error e))⟩ => if f = g then [e] else []
  | _ => []

def ends : Event S → Bool
  | ⟨.pollNext g, .ready none⟩ => f = g
  | _ => false

def attemptOf : Event S → List SocketAddr
  | ⟨.connect addr, _⟩ => [addr]
  | _ => []

def failureOf : Event S → List SocketAddr
  | ⟨.pollAttempts running, .ready (finished, none)⟩ => [running.get finished]
  | _ => []

def successOf : Event S → List S
  | ⟨.pollAttempts _, .ready (_, some stream)⟩ => [stream]
  | _ => []

/-- The addresses of its own family that a stream delivered. -/
def delivered (t : List (Event S)) : List IpAddr := t.flatMap (deliveredBy f)

def errors (t : List (Event S)) : List Error := t.flatMap (errorOf f)

def Ended (t : List (Event S)) : Prop := ∃ e ∈ t, ends f e = true

def attemptsMade (t : List (Event S)) : List SocketAddr := t.flatMap attemptOf

/-- The addresses of a family that were attempted, in order. -/
def attempted (t : List (Event S)) : List IpAddr :=
  ((attemptsMade t).map SocketAddr.ip).filter fun ip => ip.family = f

def failures (t : List (Event S)) : List SocketAddr := t.flatMap failureOf

def successes (t : List (Event S)) : List S := t.flatMap successOf

end History

/-- What a race may call after what it has called. -/
def Allowed (port : Nat) (t : List (Event S)) : Op → Prop
  | .pollNext f => ¬ Ended f t
  | .connect addr => addr.port = port ∧
      attempted addr.ip.family t ++ [addr.ip] <+: delivered addr.ip.family t
  | .elapsed => True
  | .sleep _ => True
  | .pollAttempts _ => True
  | .pollSleep => True
  | .pending => True

/-- The error where no resolver error is told. -/
def undistinguished (t : List (Event S)) : Error :=
  if attemptsMade t = [] then
    (Error.new .resolve (.resolveErrors
      (.fromFamilies (errors .v6 t).getLast? (errors .v4 t).getLast?))).unsent
  else (Error.new .connect (.allAttemptsFailed (attemptsMade t).length)).unsent

def Distinguishing (f : Family) (t : List (Event S)) (e : Error) : Prop :=
  e ∈ errors f t ∧ e.kind ≠ .resolve

/-- The error is a distinguishing error of a resolver where there is one. -/
def Told (t : List (Event S)) (e : Error) : Prop :=
  ((∃ f e', Distinguishing f t e') → ∃ f e', Distinguishing f t e' ∧ e = e'.unsent) ∧
    ((∀ f e', ¬ Distinguishing f t e') → e = undistinguished t)

/-- A distinguishing error is not followed, in every stream that has one, by another. -/
def NotOverwritten (t : List (Event S)) : Prop :=
  (∃ f e, Distinguishing f t e) → ∃ f, ∃ e ∈ (errors f t).getLast?, e.kind ≠ .resolve

/-- The locals say what has been seen. -/
structure Drive.Follows (port : Nat) (t : List (Event S)) (d : Drive) : Prop where
  queue : ∀ f, attempted f t ++ d.sched.queue f = delivered f t
  done : ∀ f, d.sched.done f = true ↔ Ended f t
  v6Done : d.v6Done = d.sched.done .v6
  v4Done : d.v4Done = d.sched.done .v4
  v6Err : d.v6Err = (errors .v6 t).getLast?
  v4Err : d.v4Err = (errors .v4 t).getLast?
  launched : d.launched = (attemptsMade t).length
  running : (failures t ++ d.attempts).Perm (attemptsMade t)
  undecided : successes t = []

def Point.Follows (port : Nat) (t : List (Event S)) : Point → Prop
  | .head d => d.Follows port t
  | .waiting d => d.Follows port t
  | .draining d => d.Follows port t ∧ d.sched.Complete

/-- What an end of the race says of what was seen. -/
def Ends (t : List (Event S)) : Driven S → Prop
  | .connected stream => successes t = [stream]
  | .panicked => successes t = []
  | .failed e => successes t = [] ∧ (∀ f, Ended f t ∧ attempted f t = delivered f t) ∧
      (failures t).Perm (attemptsMade t) ∧ e.isUnsent = true ∧ (NotOverwritten t → Told t e) ∧
      (¬ NotOverwritten t → e = undistinguished t)

section
variable (t : List (Event S)) (e : Event S) (f : Family)

theorem delivered_concat : delivered f (t ++ [e]) = delivered f t ++ deliveredBy f e := by
  simp [delivered]

theorem errors_concat : errors f (t ++ [e]) = errors f t ++ errorOf f e := by
  simp [errors]

theorem ended_concat : Ended f (t ++ [e]) ↔ Ended f t ∨ ends f e = true := by
  simp [Ended, or_and_right, exists_or]

theorem attemptsMade_concat : attemptsMade (t ++ [e]) = attemptsMade t ++ attemptOf e := by
  simp [attemptsMade]

theorem attempted_concat : attempted f (t ++ [e]) =
    attempted f t ++ ((attemptOf e).map SocketAddr.ip).filter fun ip => ip.family = f := by
  simp [attempted, attemptsMade_concat]

theorem failures_concat : failures (t ++ [e]) = failures t ++ failureOf e := by
  simp [failures]

theorem successes_concat : successes (t ++ [e]) = successes t ++ successOf e := by
  simp [successes]

theorem family_of_deliveredBy {addr : IpAddr} (h : addr ∈ deliveredBy f e) : addr.family = f := by
  obtain ⟨op, answer⟩ := e
  cases op with
  | pollNext g =>
      rcases answer with (_ | (e | record)) | _
      · cases h
      · cases h
      · change addr ∈ if f = g then (record.addrOf f).toList else [] at h
        split at h
        · simpa using (Option.filter_eq_some_iff.mp (Option.mem_toList.mp h)).2
        · cases h
      · cases h
  | elapsed => cases h
  | connect _ => cases h
  | sleep _ => cases h
  | pollAttempts _ => cases h
  | pollSleep => cases h
  | pending => cases h

theorem family_of_delivered {addr : IpAddr} (h : addr ∈ delivered f t) : addr.family = f := by
  obtain ⟨e, -, member⟩ := List.mem_flatMap.mp h
  exact family_of_deliveredBy e f member

end

/-- A call that begins no attempt and finds none finished, and what the locals keep of it. -/
structure Drive.Reads (d : Drive) (e : Event S) (d' : Drive) : Prop where
  queue : ∀ f, d'.sched.queue f = d.sched.queue f ++ deliveredBy f e
  done : ∀ f, d'.sched.done f = (d.sched.done f || ends f e)
  v6Done : d'.v6Done = (d.v6Done || ends .v6 e)
  v4Done : d'.v4Done = (d.v4Done || ends .v4 e)
  v6Err : d'.v6Err = (errorOf .v6 e).getLast?.or d.v6Err
  v4Err : d'.v4Err = (errorOf .v4 e).getLast?.or d.v4Err
  attempts : d'.attempts = d.attempts
  launched : d'.launched = d.launched
  attemptless : attemptOf e = [] ∧ failureOf e = [] ∧ successOf e = []

namespace Drive
variable {port : Nat} {t : List (Event S)} {d d' : Drive} {e : Event S}

theorem Reads.quiet (delivers : ∀ f, deliveredBy f e = []) (errs : ∀ f, errorOf f e = [])
    (unended : ∀ f, ends f e = false)
    (attemptless : attemptOf e = [] ∧ failureOf e = [] ∧ successOf e = []) : d.Reads e d where
  queue f := by rw [delivers, List.append_nil]
  done f := by rw [unended, Bool.or_false]
  v6Done := by rw [unended, Bool.or_false]
  v4Done := by rw [unended, Bool.or_false]
  v6Err := by rw [errs]; rfl
  v4Err := by rw [errs]; rfl
  attempts := rfl
  launched := rfl
  attemptless := attemptless

theorem reads_next (d : Drive) (f : Family) (item : Option Item) :
    d.Reads (⟨.pollNext f, .ready item⟩ : Event S)
      (match f with | .v6 => d.onV6 item | .v4 => d.onV4 item) := by
  rcases item with _ | e | record
  · cases f
    · refine ⟨fun g => (List.append_nil _).symm, fun g => ?_, (Bool.or_true _).symm,
        (Bool.or_false _).symm, rfl, rfl, rfl, rfl, rfl, rfl, rfl⟩
      cases g <;> simp [onV6, ends, Scheduler.done, Scheduler.markV6Done]
    · refine ⟨fun g => (List.append_nil _).symm, fun g => ?_, (Bool.or_false _).symm,
        (Bool.or_true _).symm, rfl, rfl, rfl, rfl, rfl, rfl, rfl⟩
      cases g <;> simp [onV4, ends, Scheduler.done, Scheduler.markV4Done]
  · cases f
    all_goals
      exact ⟨fun g => (List.append_nil _).symm, fun g => (Bool.or_false _).symm,
        (Bool.or_false _).symm, (Bool.or_false _).symm, rfl, rfl, rfl, rfl, rfl, rfl, rfl⟩
  · cases taken : record.addrOf f with
    | none =>
        cases f
        all_goals
          simp only [onV6, onV4, taken]
          refine ⟨fun g => ?_, fun g => (Bool.or_false _).symm, (Bool.or_false _).symm,
            (Bool.or_false _).symm, rfl, rfl, rfl, rfl, rfl, rfl, rfl⟩
          cases g <;> simp [deliveredBy, taken]
    | some addr =>
        cases f
        all_goals
          simp only [onV6, onV4, taken]
          refine ⟨fun g => ?_, fun g => ?_, (Bool.or_false _).symm,
            (Bool.or_false _).symm, rfl, rfl, rfl, rfl, rfl, rfl, rfl⟩
          · cases g <;>
              simp [deliveredBy, taken, Scheduler.queue, Scheduler.offerV6, Scheduler.offerV4]
          · cases g <;> exact (Bool.or_false _).symm

namespace Follows

theorem start (cfg : HeConfig) (port : Nat) :
    (Drive.new (.new cfg)).Follows port ([] : List (Event S)) where
  queue f := by cases f <;> rfl
  done f := by cases f <;> simp [Drive.new, Scheduler.new, Scheduler.done, Ended]
  v6Done := rfl
  v4Done := rfl
  v6Err := rfl
  v4Err := rfl
  launched := rfl
  running := .refl _
  undecided := rfl

theorem reads (h : d.Follows port t) (r : d.Reads e d') : d'.Follows port (t ++ [e]) where
  queue f := by
    rw [delivered_concat, attempted_concat, r.attemptless.1, r.queue, ← h.queue f]
    simp
  done f := by rw [ended_concat, r.done, Bool.or_eq_true, h.done]
  v6Done := by rw [r.v6Done, r.done, h.v6Done]
  v4Done := by rw [r.v4Done, r.done, h.v4Done]
  v6Err := by rw [errors_concat, List.getLast?_append, r.v6Err, h.v6Err]
  v4Err := by rw [errors_concat, List.getLast?_append, r.v4Err, h.v4Err]
  launched := by rw [attemptsMade_concat, r.attemptless.1, List.append_nil, r.launched, h.launched]
  running := by
    rw [attemptsMade_concat, failures_concat, r.attemptless.1, r.attemptless.2.1, List.append_nil,
      List.append_nil, r.attempts]
    exact h.running
  undecided := by rw [successes_concat, r.attemptless.2.2, h.undecided, List.append_nil]

/-- An attempt that the scheduler starts. -/
theorem connects (h : d.Follows port t) {elapsed : Duration} {ip : IpAddr} {sched : Scheduler}
    (begins : d.sched.Begins elapsed d.sched.pickedFrom ip sched) :
    ({ d with
      sched := sched
      launched := d.launched + 1
      attempts := d.attempts ++ [⟨ip, port⟩] } : Drive).Follows port
        (t ++ [⟨.connect ⟨ip, port⟩, ()⟩]) where
  queue f := by
    have of_family : ip.family = d.sched.pickedFrom := by
      apply family_of_delivered t
      rw [← h.queue, begins.front]
      simp
    rw [delivered_concat, attempted_concat, ← h.queue f]
    by_cases same : f = d.sched.pickedFrom
    · subst same
      simp [attemptOf, deliveredBy, of_family, begins.front]
    · simp [attemptOf, deliveredBy, of_family, begins.others f same, Ne.symm same]
  done f := by
    rw [ended_concat, begins.done, h.done]
    simp [ends]
  v6Done := by rw [begins.done, h.v6Done]
  v4Done := by rw [begins.done, h.v4Done]
  v6Err := by rw [errors_concat, h.v6Err]; simp [errorOf]
  v4Err := by rw [errors_concat, h.v4Err]; simp [errorOf]
  launched := by rw [attemptsMade_concat, List.length_append, h.launched]; rfl
  running := by
    rw [attemptsMade_concat, failures_concat]
    simpa [attemptOf, failureOf] using h.running.append_right [⟨ip, port⟩]
  undecided := by rw [successes_concat, h.undecided]; rfl

/-- The address an attempt goes to is the next one its family's stream delivered. -/
theorem connect_allowed (h : d.Follows port t) {elapsed : Duration} {ip : IpAddr}
    {sched : Scheduler} (begins : d.sched.Begins elapsed d.sched.pickedFrom ip sched) :
    Allowed port t (.connect ⟨ip, port⟩) := by
  have of_family : ip.family = d.sched.pickedFrom := by
    apply family_of_delivered t
    rw [← h.queue, begins.front]
    simp
  refine ⟨rfl, sched.queue ip.family, ?_⟩
  rw [← h.queue, of_family, begins.front]
  simp

/-- An attempt that failed is no longer among those under way. -/
theorem fails (h : d.Follows port t) (finished : Fin d.attempts.length) :
    ({ d with attempts := d.attempts.eraseIdx finished.val } : Drive).Follows port
      (t ++ [⟨.pollAttempts d.attempts, .ready (finished, none)⟩]) where
  queue f := by
    rw [delivered_concat, attempted_concat, ← h.queue f]
    simp [attemptOf, deliveredBy]
  done f := by
    rw [ended_concat, h.done]
    simp [ends]
  v6Done := h.v6Done
  v4Done := h.v4Done
  v6Err := by rw [errors_concat, h.v6Err]; simp [errorOf]
  v4Err := by rw [errors_concat, h.v4Err]; simp [errorOf]
  launched := by rw [attemptsMade_concat, h.launched]; simp [attemptOf]
  running := by
    rw [attemptsMade_concat, failures_concat]
    have split : (d.attempts.get finished :: d.attempts.eraseIdx finished.val).Perm d.attempts :=
      List.getElem_cons_eraseIdx_perm finished.isLt
    simpa [attemptOf, failureOf] using (split.append_left (failures t)).trans h.running
  undecided := by rw [successes_concat, h.undecided]; rfl

theorem complete (h : d.Follows port t) (all : d.sched.Complete) (f : Family) :
    Ended f t ∧ attempted f t = delivered f t := by
  obtain ⟨empty, done⟩ := all f
  refine ⟨(h.done f).mp done, ?_⟩
  rw [← h.queue f, empty, List.append_nil]

theorem mem_recorded (h : d.Follows port t) {e : Error} :
    e ∈ (ResolveErrors.fromFamilies d.v6Err d.v4Err).recorded ↔
      ∃ f, e ∈ (errors f t).getLast? := by
  rw [ResolveErrors.recorded_fromFamilies, h.v6Err, h.v4Err, List.mem_append, Option.mem_toList,
    Option.mem_toList]
  constructor
  · rintro (last | last)
    · exact ⟨.v6, last⟩
    · exact ⟨.v4, last⟩
  · rintro ⟨f, last⟩
    cases f with
    | v6 => exact .inl last
    | v4 => exact .inr last

/-- A race that failed tells a distinguishing error if the last error of a stream is one. -/
theorem failure_told (h : d.Follows port t) :
    d.failure.isUnsent = true ∧ (NotOverwritten t → Told t d.failure) ∧
      (¬ NotOverwritten t → d.failure = undistinguished t) := by
  cases found : (ResolveErrors.fromFamilies d.v6Err d.v4Err).distinguishingError with
  | some e =>
      have failed : d.failure = e.unsent := by simp only [failure, found]
      rw [failed]
      obtain ⟨f, last⟩ := h.mem_recorded.mp (List.mem_of_find?_eq_some found)
      have kind : e.kind ≠ .resolve := by simpa using List.find?_some found
      have told : Distinguishing f t e := ⟨List.mem_of_getLast? last, kind⟩
      refine ⟨e.isUnsent_unsent, ?_, ?_⟩
      · intro _
        exact ⟨fun _ => ⟨f, e, told, rfl⟩, fun never => absurd told (never f e)⟩
      · intro lost
        exact absurd (fun _ => ⟨f, e, last, kind⟩) lost
  | none =>
      have resolve : ∀ f, ∀ e ∈ (errors f t).getLast?, e.kind = .resolve := by
        intro f e last
        simpa using List.find?_eq_none.mp found e (h.mem_recorded.mpr ⟨f, last⟩)
      have failed : d.failure = undistinguished t := by
        simp only [failure, found]
        simp only [undistinguished, h.launched, h.v6Err, h.v4Err, List.length_eq_zero_iff]
      rw [failed]
      refine ⟨?_, ?_, fun _ => rfl⟩
      · unfold undistinguished
        split <;> exact Error.isUnsent_unsent _
      · intro kept
        refine ⟨fun some_error => ?_, fun _ => rfl⟩
        obtain ⟨f, e, last, kind⟩ := kept some_error
        exact absurd (resolve f e last) kind

end Follows
end Drive

/-- No call is made after a success, and the others are allowed ones. -/
def MayCall (port : Nat) (t : List (Event S)) (op : Op) : Prop :=
  successes t = [] ∧ Allowed port t op

abbrev watched (S : Type) (port : Nat) : Monitor Op (Op.Answer S) (List (Event S)) :=
  .history (MayCall port)

namespace Drive
variable {port : Nat} {t : List (Event S)} {d : Drive}

/-- A call that the locals keep nothing of. -/
theorem Follows.passes (h : d.Follows port t) {e : Event S} (delivers : ∀ f, deliveredBy f e = [])
    (errs : ∀ f, errorOf f e = []) (unended : ∀ f, ends f e = false)
    (attemptless : attemptOf e = [] ∧ failureOf e = [] ∧ successOf e = []) :
    d.Follows port (t ++ [e]) := h.reads (.quiet delivers errs unended attemptless)

theorem poll_wp (h : d.Follows port t) :
    (watched S port).wp (d.poll port) (Turned (Point.Follows port) Ends) t := by
  refine (Monitor.history_call _ _ _).mpr ⟨⟨h.undecided, trivial⟩, fun elapsed => ?_⟩
  have read : d.Follows port (t ++ [⟨.elapsed, elapsed⟩]) :=
    h.passes (fun _ => rfl) (fun _ => rfl) (fun _ => rfl) ⟨rfl, rfl, rfl⟩
  generalize t ++ [⟨.elapsed, elapsed⟩] = t at read
  cases polled : d.sched.poll elapsed with
  | none => exact read.undecided
  | some answer =>
      obtain ⟨action, sched⟩ := answer
      rcases Scheduler.poll_cases polled with ⟨rfl, rfl, all⟩ | ⟨wait, rfl, rfl, -, -⟩ |
        ⟨ip, rfl, -, begins⟩
      · exact ⟨read, all⟩
      · refine (Monitor.history_call _ _ _).mpr ⟨⟨read.undecided, trivial⟩, fun _ => ?_⟩
        exact read.passes (fun _ => rfl) (fun _ => rfl) (fun _ => rfl) ⟨rfl, rfl, rfl⟩
      · refine (Monitor.history_call _ _ _).mpr
          ⟨⟨read.undecided, read.connect_allowed begins⟩, fun _ => ?_⟩
        exact read.connects begins

/-- What woke the driver has been seen, and nothing else that counts. -/
def WokenBy (port : Nat) (d : Drive) (t : List (Event S)) : Poll (Woken S) → Prop
  | .pending => d.Follows port t
  | .ready .timedOut => d.Follows port t
  | .ready (.v6 item) => (d.onV6 item).Follows port t
  | .ready (.v4 item) => (d.onV4 item).Follows port t
  | .ready (.attempt finished none) =>
      ({ d with attempts := d.attempts.eraseIdx finished } : Drive).Follows port t
  | .ready (.attempt _ (some stream)) => successes t = [stream]

theorem pollAttempts_wp (h : d.Follows port t) :
    (watched S port).wp (pollAttempts d.attempts)
      (fun t r => match r with
        | .pending => d.Follows port t
        | .ready (finished, connected) => d.WokenBy port t (.ready (.attempt finished connected)))
      t := by
  unfold pollAttempts
  split
  · exact h
  · refine (Monitor.history_call _ _ _).mpr ⟨⟨h.undecided, trivial⟩, fun answer => ?_⟩
    rcases answer with ⟨finished, connected⟩ | _
    · cases connected with
      | none => exact h.fails finished
      | some stream =>
          change successes _ = _
          rw [successes_concat, h.undecided]
          rfl
    · exact h.passes (fun _ => rfl) (fun _ => rfl) (fun _ => rfl) ⟨rfl, rfl, rfl⟩

/-- A stream is polled only while it has not ended. -/
theorem pollFamily_wp (h : d.Follows port t) (f : Family) {done : Bool}
    (same : done = d.sched.done f) :
    (watched S port).wp (pollFamily f done)
      (fun t r => match r with
        | .pending => d.Follows port t
        | .ready item => d.WokenBy port t (.ready (match f with
            | .v6 => .v6 item
            | .v4 => .v4 item))) t := by
  unfold pollFamily
  split
  · exact h
  · rename_i more
    have unended : ¬ Ended f t := by
      rw [← h.done f, ← same]
      exact more
    refine (Monitor.history_call _ _ _).mpr ⟨⟨h.undecided, unended⟩, fun answer => ?_⟩
    cases answer with
    | ready item =>
        cases f with
        | v6 => exact h.reads (reads_next d .v6 item)
        | v4 => exact h.reads (reads_next d .v4 item)
    | pending => exact h.passes (fun _ => rfl) (fun _ => rfl) (fun _ => rfl) ⟨rfl, rfl, rfl⟩

theorem pollWoken_wp (h : d.Follows port t) :
    (watched S port).wp d.pollWoken (d.WokenBy port) t := by
  apply Monitor.wp_seq _ (pollFamily_wp h .v6 h.v6Done)
  intro t r h
  cases r with
  | ready item => exact h
  | pending =>
      apply Monitor.wp_seq _ (pollFamily_wp h .v4 h.v4Done)
      intro t r h
      cases r with
      | ready item => exact h
      | pending =>
          apply Monitor.wp_seq _ (pollAttempts_wp h)
          intro t r h
          cases r with
          | ready answer => exact h
          | pending =>
              refine (Monitor.history_call _ _ _).mpr ⟨⟨h.undecided, trivial⟩, fun slept => ?_⟩
              cases slept <;>
                exact h.passes (fun _ => rfl) (fun _ => rfl) (fun _ => rfl) ⟨rfl, rfl, rfl⟩

theorem wait_wp (h : d.Follows port t) :
    (watched S port).wp d.wait (Turned (Point.Follows port) Ends) t := by
  apply Monitor.wp_seq _ (pollWoken_wp h)
  intro t r woken
  rcases r with (item | item | ⟨finished, _ | stream⟩ | _) | _
  · exact woken
  · exact woken
  · exact woken
  · exact woken
  · exact woken
  · have h : d.Follows port t := woken
    refine (Monitor.history_call _ _ _).mpr ⟨⟨h.undecided, trivial⟩, fun _ => ?_⟩
    exact h.passes (fun _ => rfl) (fun _ => rfl) (fun _ => rfl) ⟨rfl, rfl, rfl⟩

theorem drain_wp (h : d.Follows port t) (all : d.sched.Complete) :
    (watched S port).wp d.drain (Turned (Point.Follows port) Ends) t := by
  unfold drain
  split
  · rename_i none_left
    have failed : (failures t).Perm (attemptsMade t) := by
      have running := h.running
      rwa [List.isEmpty_iff.mp none_left, List.append_nil] at running
    exact ⟨h.undecided, h.complete all, failed, h.failure_told⟩
  · apply Monitor.wp_seq _ (pollAttempts_wp h)
    intro t r h
    rcases r with ⟨finished, _ | stream⟩ | _
    · exact ⟨h, all⟩
    · exact h
    · refine (Monitor.history_call _ _ _).mpr ⟨⟨h.undecided, trivial⟩, fun _ => ?_⟩
      exact ⟨h.passes (fun _ => rfl) (fun _ => rfl) (fun _ => rfl) ⟨rfl, rfl, rfl⟩, all⟩

end Drive

theorem turn_wp {port : Nat} {t : List (Event S)} {p : Point} (h : p.Follows port t) :
    (watched S port).wp (p.turn port) (Turned (Point.Follows port) Ends) t := by
  cases p with
  | head d => exact Drive.poll_wp h
  | waiting d => exact Drive.wait_wp h
  | draining d => exact Drive.drain_wp h.1 h.2

/-- A race of any length makes allowed calls only, and ends as its end says. -/
theorem drive_wp (turns : Nat) (cfg : HeConfig) (port : Nat) :
    (watched S port).wp (drive turns (.new cfg) port)
      (fun t r => match r with
        | none => successes t = []
        | some driven => Ends t driven) [] := by
  have start : (Point.head (.new (.new cfg))).Follows port ([] : List (Event S)) :=
    Drive.Follows.start cfg port
  apply Monitor.wp_mono _ (Monitor.wp_loop (fun _ _ h => turn_wp h) turns start)
  intro t r h
  cases r with
  | some driven => exact h
  | none =>
      obtain ⟨p, follows⟩ := h
      cases p with
      | head d => exact follows.undecided
      | waiting d => exact follows.undecided
      | draining d => exact follows.1.undecided

/-- Whatever the streams, the attempts and the clock answer, a race polls no stream that has ended
and attempts each address of its own family once and in its turn. It answers a connection exactly
when an attempt succeeds, and fails, unsent, only when every delivered address has been attempted
and every attempt has failed. Its error is a resolver's distinguishing error if there is one and
none of them was overwritten; one that was overwritten is lost. -/
theorem drive_run {turns : Nat} {cfg : HeConfig} {port : Nat} {t : List (Event S)}
    {q : Script S (Option (Driven S))} (run : (drive turns (.new cfg) port).Steps t q) :
    (∀ before e later, t = before ++ e :: later → Allowed port before e.op) ∧
      (∀ stream, q.result = some (some (.connected stream)) ↔ stream ∈ successes t) ∧
      ∀ e, q.result = some (some (.failed e)) →
        (∀ f, Ended f t ∧ attempted f t = delivered f t) ∧ (failures t).Perm (attemptsMade t) ∧
          e.isUnsent = true ∧ (NotOverwritten t → Told t e) ∧
          (¬ NotOverwritten t → e = undistinguished t) := by
  obtain ⟨calls, rest⟩ := Monitor.history_steps run (drive_wp turns cfg port)
  rw [List.nil_append] at rest
  refine ⟨fun before e later same => (calls before e later same).2, ?_, ?_⟩
  · intro stream
    cases q with
    | done r =>
        rw [Effect.Program.result]
        rcases r with _ | (stream' | e | _)
        · have undecided : successes t = [] := rest
          simp [undecided]
        · have decided : successes t = [stream'] := rest
          simp [decided, eq_comm]
        · have undecided : successes t = [] := rest.1
          simp [undecided]
        · have undecided : successes t = [] := rest
          simp [undecided]
    | call op next =>
        have undecided : successes t = [] := rest.1.1
        simp [Effect.Program.result, undecided]
  · intro e ended
    rw [Effect.Program.result_eq_some.mp ended] at rest
    exact rest.2

/-- A resolver whose IPv6 stream ends after these errors, and whose IPv4 stream is empty. -/
def failing (op : Op) (errs : List Error) : op.Answer Unit × List Error :=
  match op, errs with
  | .elapsed, errs => ((0 : Nat), errs)
  | .connect _, errs => ((), errs)
  | .sleep _, errs => ((), errs)
  | .pollNext .v6, e :: errs => (.ready (some (.error e)), errs)
  | .pollNext .v6, [] => (.ready none, [])
  | .pollNext .v4, errs => (.ready none, errs)
  | .pollAttempts _, errs => (.pending, errs)
  | .pollSleep, errs => (.pending, errs)
  | .pending, errs => ((), errs)

/-- A failure of the resolver's. -/
def resolverError (kind : ErrorKind) : Error := .new kind (.text [])

/-- A cancelled lookup, the one error of its stream, is told. -/
theorem drive_run_cancelled :
    Told ((drive (S := Unit) 10 (.new .default) 443).log failing [resolverError .cancelled])
      (resolverError .cancelled).unsent := by
  refine ((drive_run (Effect.Program.steps_log failing
    (drive (S := Unit) 10 (.new .default) 443) _)).2.2 _ rfl).2.2.2.1 ?_
  intro _
  exact ⟨.v6, resolverError .cancelled, rfl, nofun⟩

/-- A cancelled lookup is lost when a failure to resolve follows it on its stream. -/
theorem cancelled_lookup_lost : ∃ (t : List (Event Unit)) (e : Error),
    (drive (S := Unit) 10 (.new .default) 443).Steps t (.done (some (.failed e))) ∧
      Distinguishing .v6 t (resolverError .cancelled) ∧ ¬ Told t e := by
  refine ⟨_, _, Effect.Program.steps_log failing _
    [resolverError .cancelled, resolverError .resolve], ?_, ?_⟩
  · exact ⟨List.mem_cons_self, nofun⟩
  · intro told
    obtain ⟨f, e, ⟨-, kind⟩, same⟩ := told.1 ⟨.v6, _, List.mem_cons_self, nofun⟩
    apply kind
    rw [← Error.kind_unsent e, ← same]
    rfl

end HClient.Connect
