import HClient.Effect.Machine

/-!
# Places for sessions

A connection counts its sessions against what its peer allows. A place is taken before a session
is asked for, goes over to the session when there is one, and is given back by whichever of the
two is dropped. Calls run from one atomic access to the next, and a call may fail or be dropped
wherever it waits.
-/
namespace HClient.WebTransport.Sessions

open Effect (Machine)

/-- Where a call of `connect` or `open_session` stands. -/
inductive Stage where
  /-- In the loop of `reserve`, with the count as it was last read. -/
  | reserving (counted : UInt64)
  | building
  | sending
  | receiving
  | registering
  | ended
  deriving DecidableEq, Repr

/-- The call holds a slot that has not been kept. -/
def Stage.hasSlot : Stage → Bool
  | .building | .sending | .receiving | .registering => true
  | .reserving _ | .ended => false

/-- One connection. `connect` claims as soon as it has made it, and nobody else does. -/
structure Shared where
  maxSessions : UInt64
  openCount : UInt64
  claimed : Bool
  calls : List Stage
  /-- How many `Session` handles are alive. -/
  sessions : Nat
  deriving DecidableEq, Repr

inductive Label where
  | claim
  | openSession
  | exchange (i : Nat) (spurious : Bool)
  | proceed (i : Nat)
  | fail (i : Nat)
  | cancel (i : Nat)
  | keep (i : Nat)
  | dropSession
  deriving DecidableEq, Repr

namespace Shared

def initial (maxSessions : UInt64) : Shared := ⟨maxSessions, 0, false, [], 0⟩

def put (s : Shared) (i : Nat) (stage : Stage) : Shared := { s with calls := s.calls.set i stage }

/-- The drop of a slot. -/
def release (s : Shared) (i : Nat) : Shared := { s.put i .ended with openCount := s.openCount - 1 }

def step : Machine Shared Label := fun s l =>
  match l with
  | .claim =>
      if s.claimed then none
      else
        some { s with claimed := true, openCount := s.openCount + 1, calls := s.calls ++ [.building] }
  -- `open_session` borrows a session
  | .openSession =>
      if s.sessions = 0 then none else some { s with calls := s.calls ++ [.reserving s.openCount] }
  | .exchange i spurious =>
      match s.calls[i]? with
      | some (.reserving counted) =>
          if s.maxSessions ≤ counted then some (s.put i .ended)
          else if s.openCount = counted ∧ spurious = false then
            some { s.put i .building with openCount := counted + 1 }
          else some (s.put i (.reserving s.openCount))
      | _ => none
  | .proceed i =>
      match s.calls[i]? with
      | some .building => some (s.put i .sending)
      | some .sending => some (s.put i .receiving)
      | some .receiving => some (s.put i .registering)
      | _ => none
  | .fail i =>
      match s.calls[i]? with
      | some .building | some .sending | some .receiving => some (s.release i)
      | _ => none
  | .cancel i =>
      match s.calls[i]? with
      | some .sending | some .receiving => some (s.release i)
      | _ => none
  | .keep i =>
      match s.calls[i]? with
      | some .registering => some { s.put i .ended with sessions := s.sessions + 1 }
      | _ => none
  | .dropSession =>
      if s.sessions = 0 then none
      else some { s with sessions := s.sessions - 1, openCount := s.openCount - 1 }

/-- The slots that have neither been kept nor dropped. -/
def slots (s : Shared) : Nat := s.calls.countP Stage.hasSlot

/-- What is open are slots and sessions, and nothing but the claim takes it beyond the limit. -/
structure Counts (s : Shared) : Prop where
  same : s.openCount.toNat = s.slots + s.sessions
  bounded : s.openCount.toNat ≤ max 1 s.maxSessions.toNat
  unclaimed : s.claimed = false → s.calls = [] ∧ s.sessions = 0

theorem slots_put {s : Shared} {i : Nat} {old : Stage} (there : s.calls[i]? = some old)
    (stage : Stage) :
    (s.put i stage).slots + (if old.hasSlot then 1 else 0) =
      s.slots + (if stage.hasSlot then 1 else 0) := by
  obtain ⟨inside, same⟩ := List.getElem?_eq_some_iff.mp there
  unfold slots put
  rw [List.countP_set inside, same]
  by_cases held : old.hasSlot = true
  · have some_slot : 0 < s.calls.countP Stage.hasSlot :=
      List.countP_pos_iff.mpr ⟨old, same ▸ List.getElem_mem inside, held⟩
    rw [if_pos held]
    omega
  · rw [if_neg held]
    omega

theorem counts_initial (maxSessions : UInt64) : (initial maxSessions).Counts :=
  ⟨rfl, Nat.zero_le _, fun _ => ⟨rfl, rfl⟩⟩

theorem claimed_of_call {s : Shared} (counts : s.Counts) {i : Nat} {stage : Stage}
    (there : s.calls[i]? = some stage) : s.claimed = true := by
  by_contra unclaimed
  rw [(counts.unclaimed (Bool.eq_false_iff.mpr unclaimed)).1] at there
  cases there

/-- A slot that is there is counted, and its drop counts it no more. -/
theorem release_counts {s : Shared} (counts : s.Counts) {i : Nat} {stage : Stage}
    (there : s.calls[i]? = some stage) (slot : stage.hasSlot = true) :
    (s.release i).Counts ∧ 0 < s.openCount := by
  have moved := slots_put there .ended
  have claimed := claimed_of_call counts there
  obtain ⟨same, bounded, -⟩ := counts
  rw [slot, if_pos rfl] at moved
  change _ = s.slots + 0 at moved
  have some_open : 0 < s.openCount.toNat := by omega
  have less : (s.openCount - 1).toNat = s.openCount.toNat - 1 := by
    exact UInt64.toNat_sub_of_le _ _ (UInt64.le_iff_toNat_le.mpr some_open)
  refine ⟨⟨?_, ?_, fun unclaimed => ?_⟩, UInt64.lt_iff_toNat_lt.mpr some_open⟩
  · change (s.openCount - 1).toNat = (s.put i .ended).slots + s.sessions
    omega
  · change (s.openCount - 1).toNat ≤ max 1 s.maxSessions.toNat
    omega
  · rw [show s.claimed = false from unclaimed] at claimed
    cases claimed

/-- A call that moves on, with a slot as before or without one as before. -/
theorem put_counts {s : Shared} (counts : s.Counts) {i : Nat} {old stage : Stage}
    (there : s.calls[i]? = some old) (alike : old.hasSlot = stage.hasSlot) :
    (s.put i stage).Counts := by
  have moved := slots_put there stage
  have claimed := claimed_of_call counts there
  rw [alike] at moved
  refine ⟨?_, counts.bounded, fun unclaimed => ?_⟩
  · change s.openCount.toNat = (s.put i stage).slots + s.sessions
    have := counts.same
    omega
  · rw [show s.claimed = false from unclaimed] at claimed
    cases claimed

/-- The exchange that takes a slot. -/
theorem reserve_counts {s : Shared} (counts : s.Counts) {i : Nat} {counted : UInt64}
    (there : s.calls[i]? = some (.reserving counted)) (room : ¬ s.maxSessions ≤ counted)
    (current : s.openCount = counted) :
    ({ s.put i .building with openCount := counted + 1 } : Shared).Counts ∧
      counted + 1 ≤ s.maxSessions := by
  have moved := slots_put there .building
  have claimed := claimed_of_call counts there
  obtain ⟨same, -, -⟩ := counts
  change _ + 0 = s.slots + 1 at moved
  rw [UInt64.le_iff_toNat_le, Nat.not_le] at room
  have small := s.maxSessions.toNat_lt
  have more : (counted + 1).toNat = counted.toNat + 1 := by
    rw [UInt64.toNat_add]
    exact Nat.mod_eq_of_lt (by change counted.toNat + 1 < _; omega)
  subst current
  refine ⟨⟨?_, ?_, fun unclaimed => ?_⟩, ?_⟩
  · change (s.openCount + 1).toNat = (s.put i .building).slots + s.sessions
    omega
  · change (s.openCount + 1).toNat ≤ max 1 s.maxSessions.toNat
    omega
  · rw [show s.claimed = false from unclaimed] at claimed
    cases claimed
  · rw [UInt64.le_iff_toNat_le]
    omega

end Shared

/-- The steps that give a place back. -/
def Label.Releases : Label → Prop
  | .fail _ | .cancel _ | .dropSession => True
  | _ => False

/-- A place is given back only where one is counted, and a reservation that succeeds stays within
the limit of the peer. -/
def Right (s : Shared) (l : Label) (s' : Shared) : Prop :=
  (l.Releases → 0 < s.openCount) ∧
    ∀ i spurious, l = .exchange i spurious → s'.slots = s.slots + 1 → s'.openCount ≤ s'.maxSessions

namespace Shared

theorem release_step (l : Label) (releases : l.Releases) {s : Shared} (counts : s.Counts) {i : Nat}
    {stage : Stage} (there : s.calls[i]? = some stage) (slot : stage.hasSlot = true) :
    (s.release i).Counts ∧ Right s l (s.release i) := by
  obtain ⟨counts, some_open⟩ := release_counts counts there slot
  refine ⟨counts, fun _ => some_open, ?_⟩
  rintro i spurious rfl
  cases releases

theorem step_counts {s s' : Shared} {l : Label} (counts : s.Counts) (stepped : step s l = some s') :
    s'.Counts ∧ Right s l s' := by
  cases l with
  | claim =>
      rw [step] at stepped
      split at stepped
      · cases stepped
      · rename_i unclaimed
        cases stepped
        obtain ⟨none_called, none_open⟩ := counts.unclaimed (Bool.eq_false_iff.mpr unclaimed)
        have nothing : s.openCount = 0 := UInt64.toNat_inj.mp (by
          rw [counts.same, slots, none_called, none_open]
          rfl)
        refine ⟨⟨?_, ?_, nofun⟩, nofun, nofun⟩
        · simp [slots, none_called, none_open, nothing, Stage.hasSlot]
        · simp [nothing]
  | openSession =>
      rw [step] at stepped
      split at stepped
      · cases stepped
      · rename_i some_session
        cases stepped
        refine ⟨⟨?_, counts.bounded, fun unclaimed => ?_⟩, nofun, nofun⟩
        · have same := counts.same
          unfold slots at same ⊢
          rw [List.countP_append]
          simpa [Stage.hasSlot] using same
        · exact absurd (counts.unclaimed unclaimed).2 some_session
  | exchange i spurious =>
      rw [step] at stepped
      have still {stage old : Stage} (there : s.calls[i]? = some old)
          (alike : old.hasSlot = stage.hasSlot) : (s.put i stage).slots ≠ s.slots + 1 := by
        have moved := slots_put there stage
        rw [alike] at moved
        omega
      split at stepped
      · rename_i counted there
        split at stepped
        · cases stepped
          exact ⟨put_counts counts there rfl, nofun, fun _ _ _ more => absurd more (still there rfl)⟩
        split at stepped
        · rename_i room current
          cases stepped
          obtain ⟨counts, within⟩ := reserve_counts counts there room current.1
          exact ⟨counts, nofun, fun _ _ _ _ => within⟩
        · cases stepped
          exact ⟨put_counts counts there rfl, nofun, fun _ _ _ more => absurd more (still there rfl)⟩
      · cases stepped
  | proceed i =>
      rw [step] at stepped
      split at stepped
      · rename_i there
        cases stepped
        exact ⟨put_counts counts there rfl, nofun, nofun⟩
      · rename_i there
        cases stepped
        exact ⟨put_counts counts there rfl, nofun, nofun⟩
      · rename_i there
        cases stepped
        exact ⟨put_counts counts there rfl, nofun, nofun⟩
      · cases stepped
  | fail i =>
      rw [step] at stepped
      split at stepped
      · rename_i there
        cases stepped
        exact release_step (.fail i) trivial counts there rfl
      · rename_i there
        cases stepped
        exact release_step (.fail i) trivial counts there rfl
      · rename_i there
        cases stepped
        exact release_step (.fail i) trivial counts there rfl
      · cases stepped
  | cancel i =>
      rw [step] at stepped
      split at stepped
      · rename_i there
        cases stepped
        exact release_step (.cancel i) trivial counts there rfl
      · rename_i there
        cases stepped
        exact release_step (.cancel i) trivial counts there rfl
      · cases stepped
  | keep i =>
      rw [step] at stepped
      split at stepped
      · rename_i there
        cases stepped
        have moved := slots_put there .ended
        have claimed := claimed_of_call counts there
        refine ⟨⟨?_, counts.bounded, fun unclaimed => ?_⟩, nofun, nofun⟩
        · change s.openCount.toNat = (s.put i .ended).slots + (s.sessions + 1)
          change _ + 1 = s.slots + 0 at moved
          have := counts.same
          omega
        · rw [show s.claimed = false from unclaimed] at claimed
          cases claimed
      · cases stepped
  | dropSession =>
      rw [step] at stepped
      split at stepped
      · cases stepped
      · rename_i some_session
        cases stepped
        obtain ⟨same, bounded, unclaimed⟩ := counts
        have some_open : 0 < s.openCount.toNat := by omega
        have less : (s.openCount - 1).toNat = s.openCount.toNat - 1 :=
          UInt64.toNat_sub_of_le _ _ (UInt64.le_iff_toNat_le.mpr some_open)
        refine ⟨⟨?_, ?_, fun none_yet => ?_⟩, fun _ => UInt64.lt_iff_toNat_lt.mpr some_open, nofun⟩
        · change (s.openCount - 1).toNat = s.slots + (s.sessions - 1)
          omega
        · change (s.openCount - 1).toNat ≤ max 1 s.maxSessions.toNat
          omega
        · exact absurd (unclaimed none_yet).2 some_session

end Shared

/-- In every run the count is of the slots and the sessions that are there, a place is given back
only where one is counted, and no reservation goes beyond the limit. -/
theorem openCount_counts {maxSessions : UInt64} {labels : List Label} {s : Shared}
    (reached : Shared.step.run (.initial maxSessions) labels = some s) :
    s.openCount.toNat = s.slots + s.sessions ∧
      ∀ l s', Shared.step s l = some s' → Right s l s' := by
  have counts : s.Counts :=
    Machine.run_preserves
      (fun _ _ _ (_ : True) counts stepped => (Shared.step_counts counts stepped).1)
      (Machine.always_true _ labels) (Shared.counts_initial maxSessions) reached
  exact ⟨counts.same, fun l s' stepped => (Shared.step_counts counts stepped).2⟩

/-- Two calls race for the second place of two, and the session that was first is dropped. -/
def race : List Label :=
  [.claim, .proceed 0, .proceed 0, .proceed 0, .keep 0, .openSession, .openSession,
    .exchange 2 true, .exchange 1 false, .exchange 2 false, .exchange 2 false, .proceed 1,
    .dropSession, .cancel 1]

theorem openCount_counts_race :
    (Shared.step.after (.initial 2) race).openCount.toNat =
        (Shared.step.after (.initial 2) race).slots + (Shared.step.after (.initial 2) race).sessions ∧
      (Shared.step.after (.initial 2) race).openCount = 0 :=
  ⟨(openCount_counts (show Shared.step.run (.initial 2) race = some _ by decide)).1, by decide⟩

end HClient.WebTransport.Sessions
