import HClient.Proxy.Cuts

/-!
# The answer to `CONNECT` and how it is cut

The length of a head is bounded only while it is incomplete. What the handshake comes to is the
same over every cut where the head is decided before there are more bytes than the bound lets be.
-/
namespace HClient.Proxy

namespace HttpConnect
variable {isAuthority : Text → Bool}

/-- The head is decided by the time there are more bytes than it may have, or there are not more. -/
def Decides (stream : List UInt8) : Prop :=
  parseResponse (stream.take (maxHead + 1)) ≠ .ok none ∨ stream.length ≤ maxHead + 1

theorem advance_needMore {h h' : HttpConnect isAuthority} {buf rest : List UInt8}
    (advanced : advance h buf = .ok (.needMore, h', rest)) : h' = h ∧ rest = buf := by
  unfold advance at advanced
  split at advanced
  · cases advanced
  · split at advanced
    · cases advanced
    · split at advanced <;> cases advanced
      exact ⟨rfl, rfl⟩
    · split at advanced <;> cases advanced

theorem advance_ne_write {h h' : HttpConnect isAuthority} {buf bytes rest : List UInt8} :
    advance h buf ≠ .ok (.write bytes, h', rest) := by
  intro advanced
  unfold advance at advanced
  split at advanced
  · cases advanced
  · split at advanced
    · cases advanced
    · split at advanced <;> cases advanced
    · split at advanced <;> cases advanced

theorem framed : Framed (H := HttpConnect isAuthority) fun h stream =>
    h.awaitingHead = true → Decides stream where
  waits := advance_needMore
  keeps _ wrote := absurd wrote advance_ne_write
  settles {h buf more} good moves := by
    change advance h (buf ++ more) = (advance h buf).map _
    change ¬ NeedsMore (advance h buf) at moves
    by_cases awaits : h.awaitingHead
    case neg =>
      unfold advance
      rw [if_pos awaits, if_pos awaits]
      rfl
    case pos =>
      have decides := good awaits
      unfold advance at moves ⊢
      rw [if_neg (not_not.mpr awaits)] at moves ⊢
      rw [if_neg (not_not.mpr awaits)]
      rcases parsed : parseResponse buf with e | _ | ⟨head, len⟩
      · rw [parseResponse_settles buf more (by rw [parsed]; nofun), parsed]
        rfl
      · rw [parsed] at moves
        dsimp only at moves
        by_cases long : maxHead < buf.length
        · have nothing : more = [] := by
            obtain decided | short := decides
            · refine absurd ?_ decided
              rw [List.take_append_of_le_length long]
              by_contra settled
              have := parseResponse_settles _ (buf.drop (maxHead + 1)) settled
              rw [List.take_append_drop, parsed] at this
              exact settled this.symm
            · rw [List.length_append] at short
              exact List.length_eq_zero_iff.mp (by omega)
          subst nothing
          rw [List.append_nil, parsed]
          dsimp only
          rw [if_pos long]
          rfl
        · rw [if_neg long] at moves
          exact absurd ⟨_, _, rfl⟩ moves
      · rw [parseResponse_settles buf more (by rw [parsed]; nofun), parsed]
        dsimp only
        by_cases success : isSuccess head.status
        · rw [if_neg (not_not.mpr success), if_neg (not_not.mpr success)]
          change Except.ok _ = Except.ok _
          rw [withMore, List.drop_append_of_le_length (parseResponse_fits parsed)]
        · rw [if_pos success, if_pos success]
          rfl

/-- What is left is what stands behind the head. -/
theorem leaves : Leaves (H := HttpConnect isAuthority) fun h stream left =>
    if h.awaitingHead then ∃ head n, parseResponse stream = .ok (some (head, n)) ∧
      isSuccess head.status ∧ left = stream.drop n
    else left = stream where
  waits := advance_needMore
  wrote wrote := absurd wrote advance_ne_write
  done {h h' buf rest} advanced more := by
    change advance h buf = _ at advanced
    unfold advance at advanced
    split at advanced
    next ended =>
      cases advanced
      rw [if_neg ended]
    next awaits =>
      rw [if_pos (not_not.mp awaits)]
      split at advanced
      next => cases advanced
      next => split at advanced <;> cases advanced
      next head len parsed =>
        split at advanced
        next => cases advanced
        next success =>
          cases advanced
          refine ⟨head, len, ?_, not_not.mp success, ?_⟩
          · rw [parseResponse_settles buf more (by rw [parsed]; nofun), parsed]
          · rw [List.drop_append_of_le_length (parseResponse_fits parsed)]

theorem begins_awaits {h h' : HttpConnect isAuthority} {host : Text} {port : UInt16} {io : Io}
    (begins : Begins h host port io h') : h'.awaitingHead = true := by
  obtain ⟨request, begun, -⟩ := begins
  change begin h host port = _ at begun
  unfold begin at begun
  dsimp only at begun
  split at begun
  · cases begun
  · cases begun
    rfl

theorem flatten_bytes (s : List UInt8) : (s.map fun b => [b]).flatten = s := by
  induction s with
  | nil => rfl
  | cons b s ih => rw [List.map_cons, List.flatten_cons, ih]; rfl

theorem cut_bytes (stream : List UInt8) : Cut stream (stream.map fun b => [b]) := by
  refine ⟨flatten_bytes stream, fun chunk member => ?_, fun chunk member => ?_⟩ <;>
    obtain ⟨b, -, rfl⟩ := List.mem_map.mp member
  · exact List.cons_ne_nil _ _
  · change 1 ≤ 4096
    omega

/-- The reads that come one byte at a time but for the two bytes at the bound. -/
def pastBound (stream : List UInt8) : List (List UInt8) :=
  (stream.take maxHead).map (fun b => [b]) ++
    (stream.drop maxHead).take 2 :: (stream.drop (maxHead + 2)).map fun b => [b]

theorem mem_pastBound {stream chunk : List UInt8} (long : maxHead + 1 < stream.length)
    (member : chunk ∈ pastBound stream) : chunk.length = 1 ∨ chunk.length = 2 := by
  obtain front | rfl | rest := by
    simpa only [pastBound, List.mem_append, List.mem_cons] using member
  · obtain ⟨b, -, rfl⟩ := List.mem_map.mp front
    exact .inl rfl
  · rw [List.length_take, List.length_drop]
    omega
  · obtain ⟨b, -, rfl⟩ := List.mem_map.mp rest
    exact .inl rfl

theorem cut_pastBound {stream : List UInt8} (long : maxHead + 1 < stream.length) :
    Cut stream (pastBound stream) := by
  refine ⟨?_, fun chunk member empty => ?_, fun chunk member => ?_⟩
  · rw [pastBound, List.flatten_append, List.flatten_cons, flatten_bytes, flatten_bytes,
      ← List.append_assoc, ← List.take_add, List.take_append_drop]
  · have := mem_pastBound long member
    rw [empty, List.length_nil] at this
    omega
  · have := mem_pastBound long member
    change _ ≤ 4096
    omega

section Undecided
variable {stream : List UInt8} (undecided : ¬ Decides stream)
include undecided

theorem undecided_take {k : Nat} (le : k ≤ maxHead + 1) :
    parseResponse (stream.take k) = .ok none := by
  by_contra settled
  refine undecided (.inl fun none => settled ?_)
  have same := parseResponse_settles _ ((stream.take (maxHead + 1)).drop k) settled
  have front : stream.take k = (stream.take (maxHead + 1)).take k := by
    rw [List.take_take, Nat.min_eq_left le]
  rw [front, List.take_append_drop, none] at same
  rw [front, ← same]

theorem undecided_long : maxHead + 1 < stream.length := by
  by_contra short
  exact undecided (.inr (by omega))

theorem undecided_waits {h : HttpConnect isAuthority} (awaits : h.awaitingHead = true) {k : Nat}
    (le : k ≤ maxHead) :
    advance h (stream.take k) = .ok (.needMore, h, stream.take k) := by
  unfold advance
  rw [if_neg (not_not.mpr awaits), undecided_take undecided (Nat.le_succ_of_le le)]
  dsimp only
  rw [if_neg]
  rw [List.length_take]
  omega

/-- One byte at a time the head is found too long at the first byte past the bound. -/
theorem drive_bytes {h : HttpConnect isAuthority} (awaits : h.awaitingHead = true) (io : Io) :
    (driveLoop h [] { io with reads := stream.map fun b => [b] }).1 =
      .refused (refusal (.headTooLong (maxHead + 1))) := by
  have long := undecided_long undecided
  have cut : stream.map (fun b => [b]) =
      (stream.take (maxHead + 1)).map (fun b => [b]) ++
        (stream.drop (maxHead + 1)).map fun b => [b] := by
    rw [← List.map_append, List.take_append_drop]
  rw [cut, driveLoop_bytes]
  · rw [List.nil_append]
    have refused : Handshake.advance h (stream.take (maxHead + 1)) =
        .error (refusal (.headTooLong (maxHead + 1))) := by
      change advance h _ = _
      unfold advance
      rw [if_neg (not_not.mpr awaits), undecided_take undecided le_rfl]
      have size : (stream.take (maxHead + 1)).length = maxHead + 1 := by
        rw [List.length_take]
        omega
      dsimp only
      rw [if_pos (by omega), size]
    rw [driveLoop_error refused]
  · intro k small
    rw [List.length_take] at small
    rw [List.nil_append, List.take_take, Nat.min_eq_left (by omega)]
    exact undecided_waits undecided awaits (by omega)

/-- Where no read ends just past the bound the head is never found to be that long. -/
theorem drive_pastBound {h : HttpConnect isAuthority} (awaits : h.awaitingHead = true) (io : Io) :
    ∃ rest, (driveLoop h [] { io with reads := pastBound stream }) =
      driveLoop h (stream.take (maxHead + 2)) { io with reads := rest } := by
  have long := undecided_long undecided
  have some_ : (stream.drop maxHead).take 2 ≠ [] := by
    intro empty
    have := congrArg List.length empty
    rw [List.length_take, List.length_drop, List.length_nil] at this
    omega
  refine ⟨(stream.drop (maxHead + 2)).map fun b => [b], ?_⟩
  rw [pastBound, driveLoop_bytes]
  · rw [List.nil_append]
    have more : Handshake.advance h (stream.take maxHead) = _ :=
      undecided_waits undecided awaits le_rfl
    rw [driveLoop_needMore more]
    have took : ∀ reads, Io.readSome ⟨(stream.drop maxHead).take 2 :: reads, io.ending, io.sink,
        io.written⟩ =
        (some (.ok ((stream.drop maxHead).take 2)), ⟨reads, io.ending, io.sink, io.written⟩) :=
      fun reads => if_neg some_
    rw [took]
    dsimp only
    rw [← List.take_add]
  · intro k small
    rw [List.length_take] at small
    rw [List.nil_append, List.take_take, Nat.min_eq_left (by omega)]
    exact undecided_waits undecided awaits (by omega)

theorem not_agree {h h' : HttpConnect isAuthority} {host : Text} {port : UInt16} {io : Io}
    (begins : Begins h host port io h') : ¬ Agree h host port io stream := by
  intro agree
  have long := undecided_long undecided
  have cut := cut_bytes stream
  have cut' := cut_pastBound long
  have refused : ∀ (r : Verdict × Io) (e : Error), r.1 = .refused e → (handedOn r).1 = .refused e :=
    fun r e same => by
      obtain ⟨verdict, io⟩ := r
      cases same
      rfl
  have kept : ∀ (r : Verdict × Io) (e : Error), (handedOn r).1 = .refused e → r.1 = .refused e :=
    fun r e same => by
      obtain ⟨verdict, io⟩ := r
      cases verdict <;> cases same
      rfl
  obtain ⟨h'', io', begins', drove⟩ | ⟨never, -⟩ := drive_cases h host port io
  case inr => exact never h' begins
  have awaits := begins_awaits begins'
  have same := agree _ _ cut cut'
  rw [drove, drove] at same
  obtain ⟨rest, past⟩ := drive_pastBound undecided awaits io'
  have both := kept _ _ ((congrArg Prod.fst same).symm.trans
    (refused _ _ (drive_bytes undecided awaits io')))
  rw [past] at both
  have size : (stream.take (maxHead + 2)).length = maxHead + 2 := by
    rw [List.length_take]
    omega
  rcases parsed : parseResponse (stream.take (maxHead + 2)) with e | _ | ⟨head, len⟩
  · have advanced : Handshake.advance h'' (stream.take (maxHead + 2)) =
        .error (refusal (.malformed e)) := by
      change advance h'' _ = _
      unfold advance
      rw [if_neg (not_not.mpr awaits), parsed]
    rw [driveLoop_error advanced] at both
    cases both
  · have advanced : Handshake.advance h'' (stream.take (maxHead + 2)) =
        .error (refusal (.headTooLong (maxHead + 2))) := by
      change advance h'' _ = _
      unfold advance
      rw [if_neg (not_not.mpr awaits), parsed]
      dsimp only
      rw [if_pos (by omega), size]
    rw [driveLoop_error advanced] at both
    cases both
  · by_cases success : isSuccess head.status
    · have advanced : Handshake.advance h'' (stream.take (maxHead + 2)) =
          .ok (.done, { h'' with awaitingHead := false }, (stream.take (maxHead + 2)).drop len) := by
        change advance h'' _ = _
        unfold advance
        rw [if_neg (not_not.mpr awaits), parsed]
        exact if_neg (not_not.mpr success)
      rw [driveLoop_done advanced] at both
      cases both
    · have advanced : Handshake.advance h'' (stream.take (maxHead + 2)) =
          .error ⟨.connect, .proxyRefused head.status⟩ := by
        change advance h'' _ = _
        unfold advance
        rw [if_neg (not_not.mpr awaits), parsed]
        exact if_pos success
      rw [driveLoop_error advanced] at both
      cases both

end Undecided

end HttpConnect

end HClient.Proxy
