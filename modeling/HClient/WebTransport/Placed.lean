import HClient.WebTransport.Datagrams

/-!
# What becomes of a datagram

Every arrival is in one place at a time: unread, in the hand of a call, held for a session,
answered, or dropped.
-/
namespace HClient.WebTransport

variable {ι : Type}

/-- Where an arrival is. -/
inductive Place (ι : Type) where
  | unread
  | hand (i : ι)
  | held (quarter : Nat)
  | delivered (quarter : Nat)
  | dropped

/-- What there is of the datagrams: those in the hand of a call or held for a session, and what
has become of the others. -/
structure View (ι : Type) where
  arrived : List (List UInt8)
  read : Nat
  hand : ι → Option (Nat × Datagram)
  held : Nat → Option Datagram
  delivered : List (Nat × Datagram)
  dropped : List Nat

/-- The frame a datagram came in names this session and carries its payload. -/
def Names (arrived : List (List UInt8)) (d : Datagram) (quarter : Nat) : Prop :=
  ∃ frame header, arrived[d.number]? = some frame ∧ getVarint frame = some (quarter, header) ∧
    d.payload = frame.drop header

def View.At (v : View ι) (n : Nat) : Place ι → Prop
  | .unread => v.read ≤ n
  | .hand i => ∃ id d, v.hand i = some (id, d) ∧ d.number = n
  | .held q => ∃ d, v.held q = some d ∧ d.number = n
  | .delivered q => ∃ d, (q, d) ∈ v.delivered ∧ d.number = n
  | .dropped => n ∈ v.dropped

/-- Every arrival is in one place, and under the name its frame gives. -/
structure Placed (v : View ι) : Prop where
  bound : v.read ≤ v.arrived.length
  one : ∀ n, ∃! place, v.At n place
  once : (v.delivered.map (·.2.number)).Nodup
  handNames : ∀ i id d, v.hand i = some (id, d) → Names v.arrived d id
  heldNames : ∀ q d, v.held q = some d → Names v.arrived d q
  deliveredNames : ∀ q d, (q, d) ∈ v.delivered → Names v.arrived d q

/-- One arrival goes from a place to another. -/
def Moves (v w : View ι) (n : Nat) (target : Place ι) : Prop :=
  ∀ m place, w.At m place ↔ if m = n then place = target else v.At m place

theorem Moves.one {v w : View ι} {n : Nat} {target : Place ι} (moves : Moves v w n target)
    (one : ∀ n, ∃! place, v.At n place) (m : Nat) : ∃! place, w.At m place := by
  by_cases same : m = n
  · refine ⟨target, (moves m target).mpr (by rw [if_pos same]), fun other there => ?_⟩
    have this := (moves m other).mp there
    rwa [if_pos same] at this
  · obtain ⟨place, there, unique⟩ := one m
    refine ⟨place, (moves m place).mpr (by rwa [if_neg same]), fun other there => ?_⟩
    have this := (moves m other).mp there
    rw [if_neg same] at this
    exact unique other this

/-- What is not delivered yet is delivered once. -/
theorem Placed.once_concat {v : View ι} (p : Placed v) {d : Datagram} {source : Place ι}
    (there : v.At d.number source) (other : ∀ q, source ≠ .delivered q) (q : Nat) :
    ((v.delivered ++ [(q, d)]).map (·.2.number)).Nodup := by
  rw [List.map_append, List.map_singleton]
  refine List.nodup_append.mpr ⟨p.once, List.nodup_singleton _, ?_⟩
  rintro n member m same rfl
  obtain ⟨⟨q', d'⟩, member, number⟩ := List.mem_map.mp member
  have delivered : v.At d.number (.delivered q') :=
    ⟨d', member, number.trans (List.mem_singleton.mp same)⟩
  exact other q' ((p.one d.number).unique there delivered)

/-- It leaves one place and comes to another, and nothing else does. -/
theorem Moves.of {v w : View ι} {n : Nat} {source : Place ι} (target : Place ι)
    (one : ∀ n, ∃! place, v.At n place) (there : v.At n source) (ne : source ≠ target)
    (left : ∀ m, w.At m source ↔ v.At m source ∧ m ≠ n)
    (came : ∀ m, w.At m target ↔ v.At m target ∨ m = n)
    (others : ∀ m place, place ≠ source → place ≠ target → (w.At m place ↔ v.At m place)) :
    Moves v w n target := by
  intro m place
  have unique : ∀ place, v.At n place → place = source := fun place at_ =>
    (one n).unique at_ there
  by_cases atSource : place = source
  · subst atSource
    rw [left]
    grind
  · by_cases atTarget : place = target
    · subst atTarget
      rw [came]
      grind
    · rw [others m place atSource atTarget]
      grind

theorem Names.append {arrived : List (List UInt8)} {d : Datagram} {q : Nat}
    (names : Names arrived d q) (more : List (List UInt8)) : Names (arrived ++ more) d q := by
  obtain ⟨frame, header, there, rest⟩ := names
  refine ⟨frame, header, ?_, rest⟩
  rw [List.getElem?_append_left (List.getElem?_eq_some_iff.mp there).1, there]

/-- What leaves the hand of a call. -/
theorem View.leavesHand [DecidableEq ι] {i : ι} {id : Nat} {d : Datagram}
    {v : View ι} (here : v.hand i = some (id, d)) (m : Nat) :
    (∃ id' d', Function.update v.hand i none i = some (id', d') ∧ d'.number = m) ↔
      (∃ id' d', v.hand i = some (id', d') ∧ d'.number = m) ∧ m ≠ d.number := by
  rw [Function.update_self, here]
  grind

theorem View.leavesHeld {v : View ι} {q : Nat} {d : Datagram} (here : v.held q = some d) (m : Nat) :
    (∃ d', Function.update v.held q none q = some d' ∧ d'.number = m) ↔
      (∃ d', v.held q = some d' ∧ d'.number = m) ∧ m ≠ d.number := by
  rw [Function.update_self, here]
  grind

/-- What is there after one place was emptied was there before. -/
theorem View.left {α β : Type} [DecidableEq α] {f : α → Option β} {a b : α} {x : β}
    (held : Function.update f a none b = some x) : f b = some x := by
  obtain rfl | other := eq_or_ne b a
  · rw [Function.update_self] at held
    cases held
  · rwa [Function.update_of_ne other] at held

theorem View.handElsewhere [DecidableEq ι] {v : View ι} {i j : ι} (other : j ≠ i)
    (x : Option (Nat × Datagram)) (m : Nat) :
    (∃ id d, Function.update v.hand i x j = some (id, d) ∧ d.number = m) ↔ v.At m (.hand j) := by
  rw [Function.update_of_ne other]
  rfl

theorem View.heldElsewhere {v : View ι} {q q' : Nat} (other : q' ≠ q) (x : Option Datagram)
    (m : Nat) : (∃ d, Function.update v.held q x q' = some d ∧ d.number = m) ↔
      v.At m (.held q') := by
  rw [Function.update_of_ne other]
  rfl

theorem View.deliveredHere {v : View ι} {q : Nat} {d : Datagram} (m : Nat) :
    (∃ d', (q, d') ∈ v.delivered ++ [(q, d)] ∧ d'.number = m) ↔
      (∃ d', (q, d') ∈ v.delivered ∧ d'.number = m) ∨ m = d.number := by
  grind

theorem View.deliveredElsewhere {v : View ι} {q q' : Nat} {d : Datagram} (other : q' ≠ q)
    (m : Nat) : (∃ d', (q', d') ∈ v.delivered ++ [(q, d)] ∧ d'.number = m) ↔
      v.At m (.delivered q') := by
  change _ ↔ ∃ d', (q', d') ∈ v.delivered ∧ d'.number = m
  grind

namespace Placed
variable {v : View ι} (p : Placed v)
include p

theorem readDropped (more : v.read < v.arrived.length) :
    Placed { v with read := v.read + 1, dropped := v.dropped ++ [v.read] } := by
  refine ⟨more, Moves.one (Moves.of .dropped p.one (show v.At v.read .unread from le_rfl) nofun
    (fun m => ?_) (fun m => ?_) fun m place source target => ?_) p.one, p.once,
    p.handNames, p.heldNames, p.deliveredNames⟩
  · change v.read + 1 ≤ m ↔ v.read ≤ m ∧ m ≠ v.read
    omega
  · change m ∈ v.dropped ++ [v.read] ↔ m ∈ v.dropped ∨ m = v.read
    simp
  · cases place <;> first | rfl | contradiction

theorem readDelivered (more : v.read < v.arrived.length) {q : Nat} {d : Datagram}
    (number : d.number = v.read) (names : Names v.arrived d q) :
    Placed { v with read := v.read + 1, delivered := v.delivered ++ [(q, d)] } := by
  have there : v.At d.number .unread := number.ge
  refine ⟨more, Moves.one (Moves.of (.delivered q) p.one there nofun
    (fun m => ?_) View.deliveredHere fun m place source target => ?_) p.one,
    p.once_concat there nofun q, p.handNames, p.heldNames, fun q' d' member => ?_⟩
  · change v.read + 1 ≤ m ↔ v.read ≤ m ∧ m ≠ d.number
    omega
  · cases place with
    | delivered q' => exact View.deliveredElsewhere (fun same => target (by rw [same])) m
    | _ => first | rfl | contradiction
  · obtain old | new := List.mem_append.mp member
    · exact p.deliveredNames q' d' old
    · cases List.mem_singleton.mp new
      exact names

theorem readHand [DecidableEq ι] (more : v.read < v.arrived.length) {i : ι} {id : Nat} {d : Datagram}
    (free : v.hand i = none) (number : d.number = v.read) (names : Names v.arrived d id) :
    Placed { v with read := v.read + 1, hand := Function.update v.hand i (some (id, d)) } := by
  have there : v.At d.number .unread := number.ge
  refine ⟨more, Moves.one (Moves.of (.hand i) p.one there nofun
    (fun m => ?_) (fun m => ?_) fun m place source target => ?_) p.one,
    p.once, fun j id' d' held => ?_, p.heldNames, p.deliveredNames⟩
  · change v.read + 1 ≤ m ↔ v.read ≤ m ∧ m ≠ d.number
    omega
  · change (∃ id' d', Function.update v.hand i (some (id, d)) i = some (id', d') ∧
      d'.number = m) ↔ (∃ id' d', v.hand i = some (id', d') ∧ d'.number = m) ∨ m = d.number
    rw [Function.update_self, free]
    grind
  · cases place with
    | hand j => exact View.handElsewhere (fun same => target (by rw [same])) _ m
    | _ => first | rfl | contradiction
  · change Function.update v.hand i (some (id, d)) j = some (id', d') at held
    by_cases same : j = i
    · subst same
      rw [Function.update_self] at held
      cases held
      exact names
    · rw [Function.update_of_ne same] at held
      exact p.handNames j id' d' held

theorem handDropped [DecidableEq ι] {i : ι} {id : Nat} {d : Datagram}
    (here : v.hand i = some (id, d)) :
    Placed { v with hand := Function.update v.hand i none, dropped := v.dropped ++ [d.number] } := by
  have there : v.At d.number (.hand i) := ⟨id, d, here, rfl⟩
  refine ⟨p.bound, Moves.one (Moves.of .dropped p.one there nofun
    (View.leavesHand here) (fun m => ?_) fun m place source target => ?_) p.one, p.once,
    fun j id' d' held => p.handNames j id' d' (View.left held), p.heldNames, p.deliveredNames⟩
  · change m ∈ v.dropped ++ [d.number] ↔ m ∈ v.dropped ∨ m = d.number
    simp
  · cases place with
    | hand j => exact View.handElsewhere (fun same => source (by rw [same])) _ m
    | _ => first | rfl | contradiction

theorem handHeld [DecidableEq ι] {i : ι} {id : Nat} {d : Datagram}
    (here : v.hand i = some (id, d)) (free : v.held id = none) :
    Placed { v with
      hand := Function.update v.hand i none, held := Function.update v.held id (some d) } := by
  have there : v.At d.number (.hand i) := ⟨id, d, here, rfl⟩
  refine ⟨p.bound, Moves.one (Moves.of (.held id) p.one there nofun
    (View.leavesHand here) (fun m => ?_) fun m place source target => ?_) p.one, p.once,
    fun j id' d' held => p.handNames j id' d' (View.left held), fun q d' held => ?_,
    p.deliveredNames⟩
  · change (∃ d', Function.update v.held id (some d) id = some d' ∧ d'.number = m) ↔
      (∃ d', v.held id = some d' ∧ d'.number = m) ∨ m = d.number
    rw [Function.update_self, free]
    grind
  · cases place with
    | hand j => exact View.handElsewhere (fun same => source (by rw [same])) _ m
    | held q => exact View.heldElsewhere (fun same => target (by rw [same])) _ m
    | _ => rfl
  · change Function.update v.held id (some d) q = some d' at held
    obtain rfl | other := eq_or_ne q id
    · rw [Function.update_self] at held
      cases held
      exact p.handNames i q d here
    · rw [Function.update_of_ne other] at held
      exact p.heldNames q d' held

theorem heldDelivered {q : Nat} {d : Datagram} (here : v.held q = some d) :
    Placed { v with
      held := Function.update v.held q none, delivered := v.delivered ++ [(q, d)] } := by
  have there : v.At d.number (.held q) := ⟨d, here, rfl⟩
  refine ⟨p.bound, Moves.one (Moves.of (.delivered q) p.one there nofun
    (View.leavesHeld here) View.deliveredHere fun m place source target => ?_) p.one,
    p.once_concat there nofun q, p.handNames, fun q' d' held => p.heldNames q' d' (View.left held),
    fun q' d' member => ?_⟩
  · cases place with
    | held q' => exact View.heldElsewhere (fun same => source (by rw [same])) _ m
    | delivered q' => exact View.deliveredElsewhere (fun same => target (by rw [same])) m
    | _ => rfl
  · obtain old | new := List.mem_append.mp member
    · exact p.deliveredNames q' d' old
    · cases List.mem_singleton.mp new
      exact p.heldNames q d here

theorem heldDropped {q : Nat} {d : Datagram} (here : v.held q = some d) :
    Placed { v with
      held := Function.update v.held q none, dropped := v.dropped ++ [d.number] } := by
  have there : v.At d.number (.held q) := ⟨d, here, rfl⟩
  refine ⟨p.bound, Moves.one (Moves.of .dropped p.one there nofun
    (View.leavesHeld here) (fun m => ?_) fun m place source target => ?_) p.one, p.once,
    p.handNames, fun q' d' held => p.heldNames q' d' (View.left held), p.deliveredNames⟩
  · change m ∈ v.dropped ++ [d.number] ↔ m ∈ v.dropped ∨ m = d.number
    simp
  · cases place with
    | held q' => exact View.heldElsewhere (fun same => source (by rw [same])) _ m
    | _ => first | rfl | contradiction

theorem arrives (frame : List UInt8) : Placed { v with arrived := v.arrived ++ [frame] } := by
  refine ⟨?_, fun n => ?_, p.once, fun i id d held => (p.handNames i id d held).append _,
    fun q d held => (p.heldNames q d held).append _,
    fun q d member => (p.deliveredNames q d member).append _⟩
  · have := p.bound
    change v.read ≤ (v.arrived ++ [frame]).length
    rw [List.length_append]
    omega
  · exact p.one n

end Placed

end HClient.WebTransport
