import HClient.Body.Chain
import HClient.Cache.Policy
import HClient.Core.Poll

/-!
# A body that is recorded as it is read

`Cached`: the body of the transport, with a copy of its data on the side. The copy is handed to
the store when the body ends, and the end is told to the reader once the store has taken it.
-/
namespace HClient.Client.Recorded

open Body (Answer output)
open Cache Effect

/-- What is left of a store, and whether the call it begins with has been made. -/
structure Committing where
  script : Cache.Script (Except NotStored Unit)
  waiting : Bool

structure Recorder where
  storing : Storing
  buffered : List UInt8

namespace Recorder

def new (storing : Storing) : Recorder := ⟨storing, []⟩

/-- `none` where the bound is passed. -/
def push (r : Recorder) (data : List UInt8) : Option Recorder :=
  if r.storing.maxBodyBytes < r.buffered.length + data.length then none
  else some { r with buffered := r.buffered ++ data }

/-- What the store answers is dropped. -/
def commit (r : Recorder) : Committing := ⟨HttpCache.store r.storing r.buffered, false⟩

end Recorder

/-- The transport's body is outside, and `inner` tells whether there is one. -/
structure Cached where
  inner : Bool
  stored : Option (List UInt8)
  recorder : Option Recorder
  committing : Option Committing

/-- What the transport's body and the store answer in one poll, if they are asked. -/
structure World where
  inner : Answer
  store : (op : StoreCall) → Poll op.Answer

inductive Call where
  | inner
  | begins (op : StoreCall)
  | finishes (op : StoreCall)

/-- Polls a store as far as it goes, and answers what is left of it. -/
def pollScript (w : World) :
    Cache.Script (Except NotStored Unit) → Bool → List Call × Option Committing
  | .done _, _ => ([], none)
  | .call op next, waiting =>
      let began := if waiting then [] else [Call.begins op]
      match w.store op with
      | .pending => (began, some ⟨.call op next, true⟩)
      | .ready r =>
          let rest := pollScript w (next r) false
          (began ++ .finishes op :: rest.1, rest.2)

namespace Cached

def live : Cached := ⟨true, none, none, none⟩

def fromStore (bytes : List UInt8) : Cached := ⟨false, some bytes, none, none⟩

def recording (recorder : Recorder) : Cached := ⟨true, none, some recorder, none⟩

def pollCommitting (b : Cached) (w : World) (c : Committing) : Answer × List Call × Cached :=
  match pollScript w c.script c.waiting with
  | (calls, some left) => (.pending, calls, { b with committing := some left })
  | (calls, none) => (.ended, calls, { b with committing := none })

/-- What an answer of the transport's body does to the recording. -/
def record (b : Cached) : Answer → Cached
  | .data bytes => { b with recorder := b.recorder.bind (·.push bytes) }
  | .trailers _ | .failed _ => { b with recorder := none }
  | .ended =>
      match b.recorder with
      | some r => { b with recorder := none, committing := some r.commit }
      | none => b
  | .pending => b

def pollInner (b : Cached) (w : World) : Answer × List Call × Cached :=
  if b.inner then
    let b := b.record w.inner
    match b.committing with
    | some c =>
        let (answer, calls, b) := b.pollCommitting w c
        (answer, .inner :: calls, b)
    | none => (w.inner, [.inner], b)
  else (.ended, [], b)

/-- A write already in flight comes first. -/
def pollLive (b : Cached) (w : World) : Answer × List Call × Cached :=
  match b.committing with
  | some c => b.pollCommitting w c
  | none => b.pollInner w

def pollFrame (b : Cached) (w : World) : Answer × List Call × Cached :=
  match b.stored with
  | some bytes =>
      let b := { b with stored := none }
      if bytes = [] then b.pollLive w else (.data bytes, [], b)
  | none => b.pollLive w

end Cached

/-! ## The body of the chain

`Body.Cached` is this body where it stands under the deadline and the limit, with a store that is
written or not. -/

/-- Both are at one point: the same copy, and a store on its way in both or in neither. -/
structure Agrees (b : Cached) (chained : Body.Cached) : Prop where
  inner : chained.inner.isSome = b.inner
  stored : chained.stored = b.stored
  recorder : chained.recorder = b.recorder.map fun r => ⟨r.buffered, r.storing.maxBodyBytes⟩
  committing : chained.committing.isSome = b.committing.isSome

section Chained

variable {b : Cached} {chained : Body.Cached} {w : World} {t : Body.Transport} {k : Body.Waker}
  {m : Body.Moment}

theorem agrees_live : Agrees .live .live := ⟨rfl, rfl, rfl, rfl⟩

theorem agrees_fromStore (bytes : List UInt8) : Agrees (.fromStore bytes) (.fromStore bytes) :=
  ⟨rfl, rfl, rfl, rfl⟩

theorem agrees_recording (storing : Storing) :
    Agrees (.recording (.new storing)) (.recording storing.maxBodyBytes) := ⟨rfl, rfl, rfl, rfl⟩

theorem push_agrees (r : Recorder) (data : List UInt8) :
    Body.Recorder.push ⟨r.buffered, r.storing.maxBodyBytes⟩ data =
      (r.push data).map fun r => ⟨r.buffered, r.storing.maxBodyBytes⟩ := by
  rw [Body.Recorder.push, Recorder.push]
  split <;> rfl

theorem record_agrees (agrees : Agrees b chained) (a : Answer) :
    Agrees (b.record a) (chained.record a) := by
  obtain ⟨inner, stored, recorder, committing⟩ := agrees
  cases a with
  | pending => exact ⟨inner, stored, recorder, committing⟩
  | trailers fields => exact ⟨inner, stored, rfl, committing⟩
  | failed e => exact ⟨inner, stored, rfl, committing⟩
  | data bytes =>
      refine ⟨inner, stored, ?_, committing⟩
      simp only [Cached.record, Body.Cached.record, recorder]
      cases b.recorder with
      | none => rfl
      | some r => exact push_agrees r bytes
  | ended =>
      unfold Cached.record Body.Cached.record
      rw [recorder]
      cases copy : b.recorder with
      | none => exact ⟨inner, stored, recorder.trans (by rw [copy]), committing⟩
      | some r => exact ⟨inner, stored, rfl, rfl⟩

theorem pollCommitting_agrees (agrees : Agrees b chained) {c : Committing}
    (under : b.committing = some c)
    (written : m.written = (b.pollCommitting w c).2.2.committing.isNone) :
    (Body.Cached.pollWrite k m chained).1 = (b.pollCommitting w c).1 ∧
      Agrees (b.pollCommitting w c).2.2 (Body.Cached.pollWrite k m chained).2.1 := by
  obtain ⟨inner, stored, recorder, committing⟩ := agrees
  rw [under] at committing
  unfold Cached.pollCommitting at written ⊢
  unfold Body.Cached.pollWrite
  cases polled : pollScript w c.script c.waiting with
  | mk calls left =>
      rw [polled] at written
      cases left with
      | none =>
          have done : m.written = true := written
          rw [if_pos done]
          exact ⟨rfl, inner, stored, recorder, rfl⟩
      | some left =>
          have waits : m.written = false := written
          rw [if_neg (Bool.eq_false_iff.mp waits)]
          exact ⟨rfl, inner, stored, recorder, committing⟩

theorem pollLive_agrees (agrees : Agrees b chained) (empty : chained.stored = none)
    (same : ∀ i, chained.inner = some i → t.answer i = w.inner)
    (written : m.written = (b.pollLive w).2.2.committing.isNone) :
    (chained.pollFrame t k m).1 = (b.pollLive w).1 ∧
      Agrees (b.pollLive w).2.2 (chained.pollFrame t k m).2.1 := by
  obtain ⟨polled, stored', copy, bytes⟩ := chained
  obtain rfl : stored' = none := empty
  have both := agrees.committing
  unfold Cached.pollLive at written ⊢
  cases under : b.committing with
  | some c =>
      rw [under] at both written
      obtain ⟨body, rfl⟩ := Option.isSome_iff_exists.mp both
      exact pollCommitting_agrees agrees under written
  | none =>
      rw [under] at both written
      obtain rfl : bytes = none := Option.not_isSome_iff_eq_none.mp (Bool.eq_false_iff.mp both)
      have inner := agrees.inner
      dsimp only at written ⊢
      unfold Cached.pollInner at written ⊢
      cases polled with
      | none =>
          have inner : b.inner = false := inner.symm
          rw [if_neg (Bool.eq_false_iff.mp inner)]
          exact ⟨rfl, agrees⟩
      | some i =>
          have on : b.inner = true := inner.symm
          rw [if_pos on] at written ⊢
          have taken : Agrees b ⟨some (i + 1), none, copy, none⟩ :=
            ⟨inner, agrees.stored, agrees.recorder, agrees.committing⟩
          have kept := record_agrees taken w.inner
          have on := kept.committing
          unfold Body.Cached.pollFrame
          dsimp only at written ⊢
          rw [same i rfl]
          cases begun : (b.record w.inner).committing with
          | none =>
              rw [begun] at on
              have idle := Option.not_isSome_iff_eq_none.mp (Bool.eq_false_iff.mp on)
              rw [idle]
              exact ⟨rfl, kept⟩
          | some c =>
              rw [begun] at on written
              obtain ⟨body, writes⟩ := Option.isSome_iff_exists.mp on
              rw [writes]
              exact pollCommitting_agrees kept begun written

/-- Where the transport's body answers the same, and the chain's store is written where nothing is
left of this one's, a poll of either answers the same and leaves them at one point. -/
theorem pollFrame_agrees (agrees : Agrees b chained)
    (same : ∀ i, chained.inner = some i → t.answer i = w.inner)
    (written : m.written = (b.pollFrame w).2.2.committing.isNone) :
    (chained.pollFrame t k m).1 = (b.pollFrame w).1 ∧
      Agrees (b.pollFrame w).2.2 (chained.pollFrame t k m).2.1 := by
  have stored := agrees.stored
  unfold Cached.pollFrame at written ⊢
  rcases held : b.stored with _ | _ | ⟨byte, bytes⟩
  · rw [held] at stored written
    exact pollLive_agrees agrees stored same written
  · rw [held] at stored written
    have emptied : Agrees { b with stored := none } { chained with stored := none } :=
      ⟨agrees.inner, rfl, agrees.recorder, agrees.committing⟩
    have polled := pollLive_agrees (k := k) emptied rfl same written
    have through : chained.pollFrame t k m =
        Body.Cached.pollFrame t k { chained with stored := none } m := by
      rcases chained with ⟨_ | i, _, copy, _ | body⟩ <;> cases stored <;> rfl
    rw [through]
    exact polled
  · rw [held] at stored
    unfold Body.Cached.pollFrame
    rw [stored]
    exact ⟨rfl, agrees.inner, rfl, agrees.recorder, agrees.committing⟩

end Chained

/-- One poll, with what the transport's body and the store had to answer. -/
structure Polled where
  world : World
  answer : Answer
  calls : List Call

/-- The polls of a body, up to where its reader drops it. -/
def polls : Cached → List World → List Polled
  | _, [] => []
  | b, w :: worlds =>
      ⟨w, (b.pollFrame w).1, (b.pollFrame w).2.1⟩ :: polls (b.pollFrame w).2.2 worlds

/-- The body that is left. -/
def after : Cached → List World → Cached
  | b, [] => b
  | b, w :: worlds => after (b.pollFrame w).2.2 worlds

/-! ## What a recording owes -/

def Call.begun : Call → List StoreCall
  | .begins op => [op]
  | _ => []

def Call.finished : Call → List StoreCall
  | .finishes op => [op]
  | _ => []

def World.answered (w : World) : Call → List Answer
  | .inner => [w.inner]
  | _ => []

def begun (xs : List Polled) : List StoreCall := xs.flatMap fun x => x.calls.flatMap Call.begun

def finished (xs : List Polled) : List StoreCall :=
  xs.flatMap fun x => x.calls.flatMap Call.finished

/-- What the transport's body answered. -/
def answered (xs : List Polled) : List Answer :=
  xs.flatMap fun x => x.calls.flatMap x.world.answered

/-- What the reader was answered. -/
def answers (xs : List Polled) : List Answer := xs.map Polled.answer

/-- Data, trailers or an error. -/
def isPassedOn : Answer → Bool
  | .data _ | .trailers _ | .failed _ => true
  | .ended | .pending => false

/-- A body of the length that was declared, within the limit. -/
def Takes (s : Storing) (body : List UInt8) : Prop :=
  body.length ≤ s.maxBodyBytes ∧ ∀ n ∈ s.declaredLen, n = body.length

instance (s : Storing) (body : List UInt8) : Decidable (Takes s body) :=
  inferInstanceAs (Decidable (_ ∧ _))

/-- The answers come to a clean end, with nothing but data before it, and `op` stores it. -/
def Stores (s : Storing) (answers : List Answer) (op : StoreCall) : Prop :=
  ∃ front rest, answers = front ++ .ended :: rest ∧
    (∀ a ∈ front, a = .pending ∨ a.isData = true) ∧ Takes s (output front) ∧
    op = .put s.key (s.entry (output front))

structure Records (s : Storing) (xs : List Polled) : Prop where
  intact : (answers xs).filter isPassedOn = (answered xs).filter isPassedOn
  prompt : ∀ x ∈ xs, (∀ op, x.world.store op ≠ .pending) →
    x.answer = .ended ∨ .inner ∈ x.calls ∧ x.answer = x.world.inner
  ends : ∀ ys x zs, xs = ys ++ x :: zs → x.answer = .ended →
    (answered (ys ++ [x])).getLast? = some .ended
  once : (begun xs).length ≤ 1 ∧ (finished xs).length ≤ 1
  whole : ∀ op, op ∈ begun xs ↔ Stores s (answered xs) op
  stored : ∀ op, op ∈ finished xs ↔ Stores s (answers xs) op
  settled : ∀ ys x zs, xs = ys ++ x :: zs → x.answer = .ended →
    begun xs = finished (ys ++ [x])

/-! ## One poll -/

def putOf (s : Storing) (body : List UInt8) : StoreCall := .put s.key (s.entry body)

def writing (s : Storing) (body : List UInt8) : Committing :=
  ⟨.call (putOf s body) fun _ => .done (.ok ()), true⟩

/-- How far a recording is: it goes on, the store has the body, or there is nothing to store any
more. -/
inductive Stage (s : Storing) where
  | recording (buffered : List UInt8)
  | writing (body : List UInt8) (takes : Takes s body)
  | live

namespace Stage

variable {s : Storing}

def cached : Stage s → Cached
  | recording buffered => .recording ⟨s, buffered⟩
  | writing body _ => { Cached.live with committing := some (Recorded.writing s body) }
  | live => .live

/-- The put that is on its way. -/
def flight : Stage s → List StoreCall
  | writing body _ => [putOf s body]
  | _ => []

end Stage

/-- What one poll does at each stage. -/
inductive Going (s : Storing) : Stage s → World → Answer → List Call → Stage s → Prop where
  | live (w : World) : Going s .live w w.inner [.inner] .live
  | waits {w : World} {body : List UInt8} (takes : Takes s body)
      (pending : w.store (putOf s body) = .pending) :
      Going s (.writing body takes) w .pending [] (.writing body takes)
  | written {w : World} {body : List UInt8} (takes : Takes s body)
      (ready : w.store (putOf s body) ≠ .pending) :
      Going s (.writing body takes) w .ended [.finishes (putOf s body)] .live
  | idle {w : World} (buffered : List UInt8) (inner : w.inner = .pending) :
      Going s (.recording buffered) w .pending [.inner] (.recording buffered)
  | pushes {w : World} (buffered : List UInt8) {bytes : List UInt8} (inner : w.inner = .data bytes) :
      Going s (.recording buffered) w (.data bytes) [.inner] (.recording (buffered ++ bytes))
  | tooLarge {w : World} {buffered bytes : List UInt8} (inner : w.inner = .data bytes)
      (large : s.maxBodyBytes < (buffered ++ bytes).length) :
      Going s (.recording buffered) w (.data bytes) [.inner] .live
  | gives {w : World} (buffered : List UInt8)
      (inner : w.inner.isTrailers = true ∨ w.inner.isFailed = true) :
      Going s (.recording buffered) w w.inner [.inner] .live
  | refused {w : World} {buffered : List UInt8} (inner : w.inner = .ended)
      (refuses : ¬ Takes s buffered) :
      Going s (.recording buffered) w .ended [.inner] .live
  | begins {w : World} {buffered : List UInt8} (inner : w.inner = .ended)
      (takes : Takes s buffered) (pending : w.store (putOf s buffered) = .pending) :
      Going s (.recording buffered) w .pending [.inner, .begins (putOf s buffered)]
        (.writing buffered takes)
  | stores {w : World} {buffered : List UInt8} (inner : w.inner = .ended)
      (takes : Takes s buffered) (ready : w.store (putOf s buffered) ≠ .pending) :
      Going s (.recording buffered) w .ended
        [.inner, .begins (putOf s buffered), .finishes (putOf s buffered)] .live

/-- The store makes its one call where it takes the body. -/
theorem store_takes {s : Storing} {body : List UInt8} (takes : Takes s body) :
    HttpCache.store s body = (writing s body).script := by
  have agrees : s.declaredLen.filter (· ≠ body.length) = none := by
    rw [Option.filter_eq_none_iff]
    intro n declared
    simp [takes.2 n declared]
  rw [HttpCache.store, if_neg (Nat.not_lt.mpr takes.1), agrees]
  rfl

theorem store_refuses {s : Storing} {body : List UInt8} (refuses : ¬ Takes s body) :
    ∃ reason, HttpCache.store s body = .done (.error reason) := by
  unfold HttpCache.store
  split
  · exact ⟨_, rfl⟩
  next fits =>
    split
    · exact ⟨_, rfl⟩
    next agrees =>
      refine absurd ⟨Nat.not_lt.mp fits, fun n declared => ?_⟩ refuses
      simpa using Option.filter_eq_none_iff.mp agrees n declared

theorem pollFrame_going (s : Storing) (stage : Stage s) (w : World) :
    ∃ answer calls stage', stage.cached.pollFrame w = (answer, calls, stage'.cached) ∧
      Going s stage w answer calls stage' := by
  obtain ⟨inner, store⟩ := w
  cases stage with
  | live =>
      refine ⟨_, _, _, ?_, .live _⟩
      cases inner <;> rfl
  | writing body takes =>
      cases answered : store (putOf s body) with
      | pending =>
          refine ⟨_, _, _, ?_, .waits takes answered⟩
          simp only [Stage.cached, Cached.pollFrame, Cached.pollLive, Cached.pollCommitting, writing,
            pollScript, answered]
          rfl
      | ready r =>
          refine ⟨_, _, _, ?_, .written takes fun pending => nomatch answered.symm.trans pending⟩
          simp only [Stage.cached, Cached.pollFrame, Cached.pollLive, Cached.pollCommitting, writing,
            pollScript, answered]
          rfl
  | recording buffered =>
      cases inner with
      | pending => exact ⟨_, _, _, rfl, .idle buffered rfl⟩
      | trailers fields => exact ⟨_, _, _, rfl, .gives buffered (.inl rfl)⟩
      | failed e => exact ⟨_, _, _, rfl, .gives buffered (.inr rfl)⟩
      | data bytes =>
          by_cases large : s.maxBodyBytes < buffered.length + bytes.length
          · refine ⟨_, _, _, ?_, .tooLarge rfl (by rwa [List.length_append])⟩
            simp only [Stage.cached, Cached.pollFrame, Cached.pollLive, Cached.pollInner, Cached.record,
              Cached.recording, Option.bind_some, Recorder.push, if_pos large]
            rfl
          · refine ⟨_, _, _, ?_, .pushes buffered rfl⟩
            simp only [Stage.cached, Cached.pollFrame, Cached.pollLive, Cached.pollInner, Cached.record,
              Cached.recording, Option.bind_some, Recorder.push, if_neg large]
            rfl
      | ended =>
          by_cases takes : Takes s buffered
          · have script := store_takes takes
            cases answered : store (putOf s buffered) with
            | pending =>
                refine ⟨_, _, _, ?_, .begins rfl takes answered⟩
                simp only [Stage.cached, Cached.pollFrame, Cached.pollLive, Cached.pollInner,
                  Cached.record, Cached.recording, Recorder.commit, Cached.pollCommitting, script, writing,
                  pollScript, answered]
                rfl
            | ready r =>
                refine ⟨_, _, _, ?_, .stores rfl takes fun pending => nomatch answered.symm.trans pending⟩
                simp only [Stage.cached, Cached.pollFrame, Cached.pollLive, Cached.pollInner,
                  Cached.record, Cached.recording, Recorder.commit, Cached.pollCommitting, script, writing,
                  pollScript, answered]
                rfl
          · obtain ⟨reason, script⟩ := store_refuses takes
            refine ⟨_, _, _, ?_, .refused rfl takes⟩
            have committed (b : Cached) (w : World) :
                b.pollCommitting w ⟨HttpCache.store s buffered, false⟩ =
                  (.ended, [], { b with committing := none }) := by
              rw [script]
              rfl
            simp only [Stage.cached, Cached.pollFrame, Cached.pollLive, Cached.pollInner, Cached.record,
              Cached.recording, Recorder.commit, committed]
            rfl

/-! ## Runs -/

/-- What is to be stored of a body of which `buffered` has been read. -/
def owed (s : Storing) : List UInt8 → List Answer → List StoreCall
  | _, [] => []
  | buffered, .ended :: _ => if Takes s buffered then [putOf s buffered] else []
  | buffered, .pending :: rest => owed s buffered rest
  | buffered, .data bytes :: rest => owed s (buffered ++ bytes) rest
  | _, .trailers _ :: _ => []
  | _, .failed _ :: _ => []

theorem owed_of_large {s : Storing} {buffered : List UInt8}
    (large : s.maxBodyBytes < buffered.length) (answers : List Answer) :
    owed s buffered answers = [] := by
  induction answers generalizing buffered with
  | nil => rfl
  | cons a answers ih =>
      cases a with
      | ended => exact if_neg fun takes => absurd takes.1 (Nat.not_le.mpr large)
      | pending => exact ih large
      | data bytes => exact ih (by rw [List.length_append]; omega)
      | trailers fields => rfl
      | failed e => rfl

theorem owed_length (s : Storing) (buffered : List UInt8) (answers : List Answer) :
    (owed s buffered answers).length ≤ 1 := by
  induction answers generalizing buffered with
  | nil => exact Nat.zero_le 1
  | cons a answers ih =>
      cases a with
      | ended =>
          unfold owed
          split
          · exact Nat.le_refl 1
          · exact Nat.zero_le 1
      | pending => exact ih buffered
      | data bytes => exact ih _
      | trailers fields => exact Nat.zero_le 1
      | failed e => exact Nat.zero_le 1

theorem mem_owed {s : Storing} {op : StoreCall} {buffered : List UInt8} {answers : List Answer} :
    op ∈ owed s buffered answers ↔ ∃ front rest, answers = front ++ .ended :: rest ∧
      (∀ a ∈ front, a = .pending ∨ a.isData = true) ∧ Takes s (buffered ++ output front) ∧
      op = putOf s (buffered ++ output front) := by
  induction answers generalizing buffered with
  | nil =>
      refine ⟨nofun, ?_⟩
      rintro ⟨front, rest, same, -⟩
      cases front <;> cases same
  | cons a answers ih =>
      constructor
      · intro mem
        cases a with
        | ended =>
            unfold owed at mem
            split at mem
            next takes =>
              rw [List.mem_singleton] at mem
              refine ⟨[], answers, rfl, nofun, ?_, ?_⟩
              · rwa [output, List.flatMap_nil, List.append_nil]
              · rwa [output, List.flatMap_nil, List.append_nil]
            · cases mem
        | pending =>
            obtain ⟨front, rest, same, quiet, takes, put⟩ := ih.mp mem
            refine ⟨.pending :: front, rest, by rw [same]; rfl, ?_, takes, put⟩
            exact List.forall_mem_cons.mpr ⟨.inl rfl, quiet⟩
        | data bytes =>
            obtain ⟨front, rest, same, quiet, takes, put⟩ := ih.mp mem
            rw [List.append_assoc] at takes put
            refine ⟨.data bytes :: front, rest, by rw [same]; rfl, ?_, takes, put⟩
            exact List.forall_mem_cons.mpr ⟨.inr rfl, quiet⟩
        | trailers fields => cases mem
        | failed e => cases mem
      · rintro ⟨front, rest, same, quiet, takes, put⟩
        cases front with
        | nil =>
            obtain ⟨rfl, rfl⟩ := List.cons.inj same
            rw [output, List.flatMap_nil, List.append_nil] at takes put
            rw [owed, if_pos takes, put]
            exact List.mem_singleton.mpr rfl
        | cons b front =>
            obtain ⟨rfl, rfl⟩ := List.cons.inj same
            obtain ⟨first, others⟩ := List.forall_mem_cons.mp quiet
            cases a with
            | pending => exact ih.mpr ⟨front, rest, rfl, others, takes, put⟩
            | data bytes =>
                rw [Body.output_cons, ← List.append_assoc] at takes put
                exact ih.mpr ⟨front, rest, rfl, others, takes, put⟩
            | ended => exact first.elim nofun nofun
            | trailers fields => exact first.elim nofun nofun
            | failed e => exact first.elim nofun nofun

namespace Stage

variable {s : Storing}

/-- What begins from here, if these are the answers of the transport's body. -/
def toBegin : Stage s → List Answer → List StoreCall
  | recording buffered, answered => owed s buffered answered
  | _, _ => []

/-- What finishes from here, if these are the answers told to the reader. -/
def toFinish : Stage s → List Answer → List StoreCall
  | recording buffered, answers => owed s buffered answers
  | writing body _, answers => owed s body answers
  | live, _ => []

/-- The end of the transport's body, where it is not told yet. -/
def heldBack : Stage s → List Answer
  | writing _ _ => [.ended]
  | _ => []

end Stage

section Runs

variable {s : Storing} {stage stage' : Stage s} {w : World} {answer : Answer} {calls : List Call}

theorem Going.intact (going : Going s stage w answer calls stage') :
    [answer].filter isPassedOn = (calls.flatMap w.answered).filter isPassedOn := by
  cases going with
  | live => rfl
  | waits => rfl
  | written => rfl
  | idle buffered inner => simp [World.answered, inner]
  | pushes buffered inner => simp [World.answered, inner]
  | tooLarge inner => simp [World.answered, inner]
  | gives => rfl
  | refused inner => simp [World.answered, inner]
  | begins inner => simp [World.answered, inner, isPassedOn]
  | stores inner => simp [World.answered, inner, isPassedOn]

theorem Going.prompt (going : Going s stage w answer calls stage')
    (ready : ∀ op, w.store op ≠ .pending) :
    answer = .ended ∨ .inner ∈ calls ∧ answer = w.inner := by
  cases going with
  | live => exact .inr ⟨List.mem_cons_self, rfl⟩
  | waits takes pending => exact absurd pending (ready _)
  | written => exact .inl rfl
  | idle buffered inner => exact .inr ⟨List.mem_cons_self, inner.symm⟩
  | pushes buffered inner => exact .inr ⟨List.mem_cons_self, inner.symm⟩
  | tooLarge inner => exact .inr ⟨List.mem_cons_self, inner.symm⟩
  | gives => exact .inr ⟨List.mem_cons_self, rfl⟩
  | refused => exact .inl rfl
  | begins inner takes pending => exact absurd pending (ready _)
  | stores => exact .inl rfl

/-- Once the end is told, nothing is recorded and nothing is on its way. -/
theorem Going.told (going : Going s stage w .ended calls stage') : stage' = .live := by
  generalize told : Answer.ended = answer at going
  cases going with
  | waits => cases told
  | idle => cases told
  | pushes => cases told
  | begins => cases told
  | live => rfl
  | written => rfl
  | tooLarge => rfl
  | gives => rfl
  | refused => rfl
  | stores => rfl

theorem Going.carries (going : Going s stage w answer calls stage') :
    stage.flight ++ calls.flatMap Call.begun = calls.flatMap Call.finished ++ stage'.flight := by
  cases going <;> rfl

theorem Going.holds (going : Going s stage w answer calls stage') :
    ∃ front, stage.heldBack ++ calls.flatMap w.answered = front ++ stage'.heldBack := by
  cases going with
  | begins inner => exact ⟨[], by simp [Stage.heldBack, World.answered, inner]⟩
  | waits => exact ⟨[], rfl⟩
  | _ => exact ⟨_, (List.append_nil _).symm⟩

theorem Going.ends (going : Going s stage w .ended calls stage') :
    (stage.heldBack ++ calls.flatMap w.answered).getLast? = some .ended := by
  generalize told : Answer.ended = answer at going
  cases going with
  | waits => cases told
  | idle => cases told
  | pushes => cases told
  | tooLarge => cases told
  | begins => cases told
  | live => simp [Stage.heldBack, World.answered, ← told]
  | written => rfl
  | gives => simp [Stage.heldBack, World.answered, ← told]
  | refused inner => simp [Stage.heldBack, World.answered, inner]
  | stores inner => simp [Stage.heldBack, World.answered, inner]

theorem Going.toBegin (going : Going s stage w answer calls stage') (answered : List Answer) :
    stage.toBegin (calls.flatMap w.answered ++ answered) =
      calls.flatMap Call.begun ++ stage'.toBegin answered := by
  cases going with
  | live => rfl
  | waits => rfl
  | written => rfl
  | idle buffered inner => simp [World.answered, inner, Stage.toBegin, owed, Call.begun]
  | pushes buffered inner => simp [World.answered, inner, Stage.toBegin, owed, Call.begun]
  | tooLarge inner large =>
      simp [World.answered, inner, Stage.toBegin, owed, Call.begun, owed_of_large large]
  | gives buffered inner =>
      cases answer : w.inner <;> rw [answer] at inner <;>
        simp_all [World.answered, Stage.toBegin, owed, Call.begun, Answer.isTrailers, Answer.isFailed]
  | refused inner refuses =>
      simp [World.answered, inner, Stage.toBegin, owed, Call.begun, refuses]
  | begins inner takes => simp [World.answered, inner, Stage.toBegin, owed, Call.begun, takes]
  | stores inner takes => simp [World.answered, inner, Stage.toBegin, owed, Call.begun, takes]

theorem Going.toFinish (going : Going s stage w answer calls stage') (answers : List Answer) :
    stage.toFinish (answer :: answers) =
      calls.flatMap Call.finished ++ stage'.toFinish answers := by
  cases going with
  | live => rfl
  | waits => rfl
  | written takes => simp [Stage.toFinish, owed, Call.finished, takes]
  | idle => rfl
  | pushes => rfl
  | tooLarge inner large => exact owed_of_large large answers
  | gives buffered inner =>
      cases answer : w.inner <;> rw [answer] at inner <;>
        simp_all [Stage.toFinish, owed, Call.finished, Answer.isTrailers, Answer.isFailed]
  | refused inner refuses => simp [Stage.toFinish, owed, Call.finished, refuses]
  | begins => rfl
  | stores inner takes => simp [Stage.toFinish, owed, Call.finished, takes]

theorem polls_cons (stage : Stage s) (w : World) (worlds : List World) :
    ∃ answer calls stage', Going s stage w answer calls stage' ∧
      polls stage.cached (w :: worlds) =
        ⟨w, answer, calls⟩ :: polls stage'.cached worlds := by
  obtain ⟨answer, calls, stage', same, going⟩ := pollFrame_going s stage w
  exact ⟨answer, calls, stage', going, by rw [polls, same]⟩

theorem polls_intact (stage : Stage s) (worlds : List World) :
    (answers (polls stage.cached worlds)).filter isPassedOn =
      (answered (polls stage.cached worlds)).filter isPassedOn := by
  induction worlds generalizing stage with
  | nil => rfl
  | cons w worlds ih =>
      obtain ⟨answer, calls, stage', going, same⟩ := polls_cons stage w worlds
      rw [same, answered, List.flatMap_cons, List.filter_append, ← going.intact, ← answered,
        ← ih stage', ← List.filter_append]
      rfl

theorem polls_prompt (stage : Stage s) (worlds : List World) :
    ∀ x ∈ polls stage.cached worlds, (∀ op, x.world.store op ≠ .pending) →
      x.answer = .ended ∨ .inner ∈ x.calls ∧ x.answer = x.world.inner := by
  induction worlds generalizing stage with
  | nil => exact nofun
  | cons w worlds ih =>
      obtain ⟨answer, calls, stage', going, same⟩ := polls_cons stage w worlds
      rw [same]
      exact List.forall_mem_cons.mpr ⟨going.prompt, ih stage'⟩

theorem begun_polls (stage : Stage s) (worlds : List World) :
    begun (polls stage.cached worlds) =
      stage.toBegin (answered (polls stage.cached worlds)) := by
  induction worlds generalizing stage with
  | nil => cases stage <;> rfl
  | cons w worlds ih =>
      obtain ⟨answer, calls, stage', going, same⟩ := polls_cons stage w worlds
      rw [same, answered, List.flatMap_cons, going.toBegin, ← answered, ← ih stage']
      rfl

theorem finished_polls (stage : Stage s) (worlds : List World) :
    finished (polls stage.cached worlds) =
      stage.toFinish (answers (polls stage.cached worlds)) := by
  induction worlds generalizing stage with
  | nil => cases stage <;> rfl
  | cons w worlds ih =>
      obtain ⟨answer, calls, stage', going, same⟩ := polls_cons stage w worlds
      rw [same, answers, List.map_cons, going.toFinish, ← answers, ← ih stage']
      rfl

/-- The end is told behind the one that arrived; nothing is begun from then on, and what was begun
before has finished. -/
theorem polls_told (stage : Stage s) (worlds : List World) (ys : List Polled) (x : Polled)
    (zs : List Polled) (split : polls stage.cached worlds = ys ++ x :: zs)
    (told : x.answer = .ended) :
    (stage.heldBack ++ answered (ys ++ [x])).getLast? = some .ended ∧
      stage.flight ++ begun (polls stage.cached worlds) = finished (ys ++ [x]) := by
  induction worlds generalizing stage ys with
  | nil => cases ys <;> cases split
  | cons w worlds ih =>
      obtain ⟨answer, calls, stage', going, same⟩ := polls_cons stage w worlds
      rw [same] at split ⊢
      rw [begun, List.flatMap_cons, ← List.append_assoc, going.carries, List.append_assoc, ← begun]
      cases ys with
      | nil =>
          obtain ⟨rfl, -⟩ := List.cons.inj split
          obtain rfl : answer = .ended := told
          obtain rfl := going.told
          rw [begun_polls, List.nil_append, answered, finished, List.flatMap_singleton,
            List.flatMap_singleton]
          exact ⟨going.ends, List.append_nil _⟩
      | cons y ys =>
          obtain ⟨rfl, rest⟩ := List.cons.inj split
          obtain ⟨front, holds⟩ := going.holds
          obtain ⟨ends, settled⟩ := ih stage' ys rest
          refine ⟨?_, by rw [settled]; rfl⟩
          rw [List.cons_append, answered, List.flatMap_cons, ← List.append_assoc, holds,
            List.append_assoc, List.getLast?_append, ← answered, ends]
          rfl

end Runs

/-- Whatever the transport's body and the store answer, and wherever the reader drops it, a
recorded body is handed on as it is and stored as a whole or not at all. -/
theorem polls_record (s : Storing) (worlds : List World) :
    Records s (polls (.recording (.new s)) worlds) := by
  have begins := begun_polls (.recording [] : Stage s) worlds
  have finishes := finished_polls (.recording [] : Stage s) worlds
  have ends := polls_told (.recording [] : Stage s) worlds
  refine ⟨polls_intact (.recording []) worlds, polls_prompt (.recording []) worlds,
    fun ys x zs split told => (ends ys x zs split told).1, ⟨?_, ?_⟩, fun op => ?_, fun op => ?_,
    fun ys x zs split told => (ends ys x zs split told).2⟩
  · exact begins ▸ owed_length s [] _
  · exact finishes ▸ owed_length s [] _
  · exact begins ▸ mem_owed
  · exact finishes ▸ mem_owed

end HClient.Client.Recorded
