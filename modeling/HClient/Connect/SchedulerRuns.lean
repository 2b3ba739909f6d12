import HClient.Connect.Scheduler
import HClient.Effect.Walk

/-!
# A scheduler in use

The calls of a scheduler in any order, from a new one on, and what its caller sees of them.
-/
namespace HClient.Connect

inductive Call where
  | offerV6 (addrs : List IpAddr)
  | offerV4 (addrs : List IpAddr)
  | markV6Done
  | markV4Done
  | poll (elapsed : Duration)
  deriving DecidableEq

/-- What is seen of a call. An address is started from one of the two families. -/
inductive Seen where
  | offered (f : Family) (addrs : List IpAddr)
  | finished (f : Family)
  | started (elapsed : Duration) (f : Family) (addr : IpAddr)
  | waited (elapsed d : Duration)
  | exhausted (elapsed : Duration)
  | panicked (elapsed : Duration)
  deriving DecidableEq

namespace Scheduler

def see (s : Scheduler) (elapsed : Duration) : HeAction → Seen
  | .start addr => .started elapsed s.pickedFrom addr
  | .wait d => .waited elapsed d
  | .exhausted => .exhausted elapsed

/-- A call that panics changes nothing. -/
def step (s : Scheduler) : Call → Seen × Scheduler
  | .offerV6 addrs => (.offered .v6 addrs, s.offerV6 addrs)
  | .offerV4 addrs => (.offered .v4 addrs, s.offerV4 addrs)
  | .markV6Done => (.finished .v6, s.markV6Done)
  | .markV4Done => (.finished .v4, s.markV4Done)
  | .poll elapsed =>
      match s.poll elapsed with
      | none => (.panicked elapsed, s)
      | some (action, s') => (s.see elapsed action, s')

def after (s : Scheduler) (calls : List Call) : Scheduler := calls.foldl (fun s c => (s.step c).2) s

def trace : Scheduler → List Call → List Seen
  | _, [] => []
  | s, call :: calls => (s.step call).1 :: trace (s.step call).2 calls

end Scheduler

def Call.reading : Call → Option Duration
  | .poll elapsed => some elapsed
  | .offerV6 _ => none
  | .offerV4 _ => none
  | .markV6Done => none
  | .markV4Done => none

/-- The readings of the clock do not decrease. -/
def Clock (calls : List Call) : Prop := (calls.filterMap Call.reading).Pairwise (· ≤ ·)

instance (calls : List Call) : Decidable (Clock calls) :=
  inferInstanceAs (Decidable (List.Pairwise _ _))

section History
variable (f : Family)

def Seen.offeredTo : Seen → List IpAddr
  | .offered g addrs => if f = g then addrs else []
  | _ => []

def Seen.startedFrom : Seen → List IpAddr
  | .started _ g addr => if f = g then [addr] else []
  | _ => []

def Seen.startedAt : Seen → Option Duration
  | .started elapsed _ _ => some elapsed
  | _ => none

def offeredTo (t : List Seen) : List IpAddr := t.flatMap (Seen.offeredTo f)

def startedFrom (t : List Seen) : List IpAddr := t.flatMap (Seen.startedFrom f)

def lastStarted (t : List Seen) : Option Duration := (t.filterMap Seen.startedAt).getLast?

end History

/-- Every offered address has been started and both families are done. -/
def AllDone (t : List Seen) : Prop :=
  ∀ f, startedFrom f t = offeredTo f t ∧ .finished f ∈ t

/-- The attempt delay a scheduler of this configuration keeps to. -/
def HeConfig.pace (cfg : HeConfig) : Duration := cfg.attemptDelay.clamp attemptMin attemptMax

/-- What a scheduler promises of a call, after what its caller has seen. -/
def Promised (cfg : HeConfig) (t : List Seen) : Seen → Prop
  | .started elapsed f addr =>
      (startedFrom f t ++ [addr] <+: offeredTo f t) ∧
        (∀ last ∈ lastStarted t, last + cfg.pace ≤ elapsed) ∧
        (f = .v4 → offeredTo .v6 t = [] → .finished .v6 ∉ t → cfg.resolutionDelay ≤ elapsed) ∧
        ¬ AllDone t
  | .waited _ d => d ≤ max cfg.pace cfg.resolutionDelay ∧ ¬ AllDone t
  | .exhausted _ => AllDone t
  | .panicked _ => ¬ AllDone t
  | .offered _ _ => True
  | .finished _ => True

/-- A scheduler holds what its caller has seen and not yet been told to start. -/
structure Scheduler.Follows (s : Scheduler) (cfg : HeConfig) (t : List Seen) : Prop where
  queue : ∀ f, startedFrom f t ++ s.queue f = offeredTo f t
  done : ∀ f, s.done f = true ↔ .finished f ∈ t
  lastStart : s.lastStart = lastStarted t
  pace : s.cfg.attemptDelay = cfg.pace
  resolution : s.cfg.resolutionDelay = cfg.resolutionDelay

section
variable (t : List Seen) (e : Seen) (f : Family)

theorem offeredTo_concat : offeredTo f (t ++ [e]) = offeredTo f t ++ e.offeredTo f := by
  simp [offeredTo]

theorem startedFrom_concat : startedFrom f (t ++ [e]) = startedFrom f t ++ e.startedFrom f := by
  simp [startedFrom]

theorem lastStarted_concat : lastStarted (t ++ [e]) = e.startedAt.or (lastStarted t) := by
  unfold lastStarted
  rw [List.filterMap_append]
  cases at_e : e.startedAt <;> simp [at_e]

end

namespace Scheduler
variable {s s' : Scheduler} {cfg : HeConfig} {t : List Seen} {elapsed : Duration}

theorem follows_new (cfg : HeConfig) : (new cfg).Follows cfg [] where
  queue f := by cases f <;> rfl
  done f := by cases f <;> simp [new, Scheduler.done]
  lastStart := rfl
  pace := rfl
  resolution := rfl

theorem Follows.complete_iff (h : s.Follows cfg t) : s.Complete ↔ AllDone t := by
  apply forall_congr'
  intro f
  rw [← h.done f, ← h.queue f, eq_comm (a := startedFrom f t), List.append_right_eq_self]

theorem Follows.offer (h : s.Follows cfg t) (f : Family) (addrs : List IpAddr) :
    (s.offer f addrs).Follows cfg (t ++ [.offered f addrs]) where
  queue g := by
    rw [queue_offer, offeredTo_concat, startedFrom_concat, ← h.queue g]
    by_cases same : g = f <;> simp [Seen.offeredTo, Seen.startedFrom, same]
  done g := by simp [h.done]
  lastStart := by rw [lastStart_offer, lastStarted_concat, h.lastStart]; rfl
  pace := by rw [cfg_offer, h.pace]
  resolution := by rw [cfg_offer, h.resolution]

theorem Follows.markDone (h : s.Follows cfg t) (f : Family) :
    (s.markDone f).Follows cfg (t ++ [.finished f]) where
  queue g := by
    rw [queue_markDone, offeredTo_concat, startedFrom_concat, ← h.queue g]
    simp [Seen.offeredTo, Seen.startedFrom]
  done g := by
    rw [done_markDone]
    by_cases same : g = f <;> simp [same, h.done]
  lastStart := by rw [lastStart_markDone, lastStarted_concat, h.lastStart]; rfl
  pace := by rw [cfg_markDone, h.pace]
  resolution := by rw [cfg_markDone, h.resolution]

/-- What starts nothing, offers nothing and finishes nothing leaves all as it was. -/
theorem Follows.quiet (h : s.Follows cfg t) {e : Seen} (offers : ∀ f, e.offeredTo f = [])
    (starts : ∀ f, e.startedFrom f = []) (at_none : e.startedAt = none)
    (finishes : ∀ f, e ≠ .finished f) : s.Follows cfg (t ++ [e]) where
  queue g := by
    rw [offeredTo_concat, startedFrom_concat, offers, starts, List.append_nil, List.append_nil]
    exact h.queue g
  done g := by simp [h.done, (finishes g).symm]
  lastStart := by rw [lastStarted_concat, at_none, h.lastStart]; rfl
  pace := h.pace
  resolution := h.resolution

theorem Follows.begin (h : s.Follows cfg t) {f : Family} {addr : IpAddr}
    (begins : s.Begins elapsed f addr s') :
    s'.Follows cfg (t ++ [.started elapsed f addr]) where
  queue g := by
    rw [offeredTo_concat, startedFrom_concat, ← h.queue g]
    by_cases same : g = f
    · subst same
      simp [Seen.offeredTo, Seen.startedFrom, begins.front]
    · simp [Seen.offeredTo, Seen.startedFrom, begins.others g same, same]
  done g := by simp [begins.done, h.done]
  lastStart := by rw [begins.lastStart, lastStarted_concat]; rfl
  pace := by rw [begins.cfg, h.pace]
  resolution := by rw [begins.cfg, h.resolution]

/-- An attempt begins in its family's order, at its pace, and IPv4 not before its time. -/
theorem Follows.begin_promised (h : s.Follows cfg t) {f : Family} {addr : IpAddr}
    (some_left : ¬ s.Complete) (begins : s.Begins elapsed f addr s') :
    Promised cfg t (.started elapsed f addr) := by
  refine ⟨?_, ?_, ?_, ?_⟩
  · rw [← h.queue f, begins.front]
    exact ⟨s'.queue f, by simp⟩
  · intro last before
    rw [← h.pace]
    exact begins.paced last (by rw [h.lastStart]; exact before)
  · intro ipv4 none_offered unfinished
    have no_queue : s.v6 = [] := by
      have all := h.queue .v6
      rw [none_offered] at all
      exact (List.append_eq_nil_iff.mp all).2
    have more : ¬ s.v6Done = true := fun done => unfinished ((h.done .v6).mp done)
    rw [← h.resolution]
    exact ((begins.heldBack ipv4).resolve_left (absurd no_queue)).resolve_left more
  · rwa [← h.complete_iff]

theorem Follows.wait_promised (h : s.Follows cfg t) {d : Duration} (some_left : ¬ s.Complete)
    (clock : ∀ last ∈ lastStarted t, last ≤ elapsed) (waits : s.Waits elapsed d) :
    Promised cfg t (.waited elapsed d) := by
  refine ⟨?_, by rwa [← h.complete_iff]⟩
  rcases waits with held | ⟨last, before, rest⟩
  · rw [h.resolution] at held
    exact held.trans (le_max_right _ _)
  · have earlier := clock last (by rw [← h.lastStart]; exact before)
    rw [h.pace] at rest
    have held : d ≤ cfg.pace := by
      rw [rest, Nat.sub_le_iff_le_add, Nat.add_comm cfg.pace]
      exact Nat.add_le_add_right earlier _
    exact held.trans (le_max_left _ _)

theorem Follows.step (h : s.Follows cfg t) (call : Call) :
    (s.step call).2.Follows cfg (t ++ [(s.step call).1]) := by
  cases call with
  | offerV6 addrs => exact h.offer .v6 addrs
  | offerV4 addrs => exact h.offer .v4 addrs
  | markV6Done => exact h.markDone .v6
  | markV4Done => exact h.markDone .v4
  | poll elapsed =>
      dsimp only [Scheduler.step]
      cases polled : s.poll elapsed with
      | none => exact h.quiet (fun _ => rfl) (fun _ => rfl) rfl nofun
      | some answer =>
          obtain ⟨action, s'⟩ := answer
          rcases poll_cases polled with ⟨rfl, rfl, -⟩ | ⟨d, rfl, rfl, -, -⟩ | ⟨addr, rfl, -, begins⟩
          · exact h.quiet (fun _ => rfl) (fun _ => rfl) rfl nofun
          · exact h.quiet (fun _ => rfl) (fun _ => rfl) rfl nofun
          · exact h.begin begins

theorem Follows.promised (h : s.Follows cfg t) (call : Call)
    (clock : ∀ last ∈ lastStarted t, ∀ elapsed ∈ call.reading, last ≤ elapsed) :
    Promised cfg t (s.step call).1 := by
  cases call with
  | offerV6 addrs => trivial
  | offerV4 addrs => trivial
  | markV6Done => trivial
  | markV4Done => trivial
  | poll elapsed =>
      dsimp only [Scheduler.step]
      cases polled : s.poll elapsed with
      | none =>
          change ¬ AllDone t
          rw [← h.complete_iff]
          exact not_complete_of_poll polled
      | some answer =>
          obtain ⟨action, s'⟩ := answer
          rcases poll_cases polled with ⟨rfl, -, all⟩ | ⟨d, rfl, -, left, waits⟩ |
            ⟨addr, rfl, left, begins⟩
          · exact h.complete_iff.mp all
          · exact h.wait_promised left (fun last before => clock last before elapsed rfl) waits
          · exact h.begin_promised left begins

theorem after_concat (s : Scheduler) (calls : List Call) (call : Call) :
    s.after (calls ++ [call]) = ((s.after calls).step call).2 := List.foldl_concat ..

theorem trace_concat (s : Scheduler) (calls : List Call) (call : Call) :
    s.trace (calls ++ [call]) = s.trace calls ++ [((s.after calls).step call).1] := by
  induction calls generalizing s with
  | nil => rfl
  | cons first calls ih => exact congrArg (List.cons _) (ih _)

theorem follows_after (cfg : HeConfig) (calls : List Call) :
    ((new cfg).after calls).Follows cfg ((new cfg).trace calls) := by
  induction calls using List.reverseRecOn with
  | nil => exact follows_new cfg
  | append_singleton calls call ih =>
      rw [after_concat, trace_concat]
      exact ih.step call

theorem reading_of_startedAt {call : Call} {at_start : Duration}
    (h : (s.step call).1.startedAt = some at_start) : call.reading = some at_start := by
  cases call with
  | offerV6 addrs => cases h
  | offerV4 addrs => cases h
  | markV6Done => cases h
  | markV4Done => cases h
  | poll elapsed =>
      dsimp only [Scheduler.step] at h
      cases polled : s.poll elapsed with
      | none => simp [polled, Seen.startedAt] at h
      | some answer =>
          obtain ⟨action, s'⟩ := answer
          rw [polled] at h
          cases action with
          | start addr => exact h
          | wait d => cases h
          | exhausted => cases h

/-- Every attempt starts at a reading of the clock. -/
theorem startedAt_trace (s : Scheduler) (calls : List Call) {at_start : Duration}
    (h : at_start ∈ (s.trace calls).filterMap Seen.startedAt) :
    at_start ∈ calls.filterMap Call.reading := by
  induction calls generalizing s with
  | nil => exact h
  | cons call calls ih =>
      obtain ⟨e, member, starts⟩ := List.mem_filterMap.mp h
      apply List.mem_filterMap.mpr
      rcases List.mem_cons.mp member with rfl | later
      · exact ⟨call, List.mem_cons_self, reading_of_startedAt starts⟩
      · obtain ⟨call', among, reads⟩ := List.mem_filterMap.mp
          (ih (s.step call).2 (List.mem_filterMap.mpr ⟨e, later, starts⟩))
        exact ⟨call', List.mem_cons_of_mem _ among, reads⟩

/-- In every run whose readings do not decrease, a scheduler keeps its promises at each call. -/
theorem scheduler_run (cfg : HeConfig) (calls : List Call) (clock : Clock calls)
    (before later : List Seen) (seen : Seen)
    (split : (new cfg).trace calls = before ++ seen :: later) : Promised cfg before seen := by
  induction calls using List.reverseRecOn generalizing later with
  | nil => cases before <;> cases split
  | append_singleton calls call ih =>
      unfold Clock at clock
      rw [List.filterMap_append, List.pairwise_append] at clock
      obtain ⟨earlier, -, ordered⟩ := clock
      rw [trace_concat] at split
      rcases Effect.split_concat split with ⟨rfl, rfl, -⟩ | ⟨rest, same, -⟩
      · apply (follows_after cfg calls).promised call
        intro at_start last elapsed reads
        apply ordered at_start (startedAt_trace _ _ (List.mem_of_getLast? last))
        simpa using reads
      · exact ih earlier rest same

/-- The end of an IPv6 lookup, held back for, lets the one IPv4 address go. -/
theorem scheduler_run_late : Promised .default
    [.offered .v4 [.v4 [192, 0, 2, 1]], .waited 0 (.fromMillis 50), .finished .v6]
    (.started 5 .v4 (.v4 [192, 0, 2, 1])) :=
  scheduler_run .default
    [.offerV4 [.v4 [192, 0, 2, 1]], .poll 0, .markV6Done, .poll 5, .markV4Done, .poll 6]
    (by decide) _ [.finished .v4, .exhausted 6] _ (by decide)

end Scheduler
end HClient.Connect
