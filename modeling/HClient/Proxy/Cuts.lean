import HClient.Proxy.Drive

/-!
# Handshakes and how the stream is cut

What the driver comes to over a stream that arrives in pieces, against the stream as a whole.
-/
namespace HClient.Proxy

variable {H : Type} [Handshake H]

abbrev Advanced (H : Type) : Type := Except Error (Step × H × List UInt8)

/-- The same step with more behind it. -/
def withMore (more : List UInt8) (r : Step × H × List UInt8) : Step × H × List UInt8 :=
  (r.1, r.2.1, r.2.2 ++ more)

def NeedsMore (r : Advanced H) : Prop := ∃ h rest, r = .ok (.needMore, h, rest)

/-- Where it needs more it has consumed nothing, and where it does not, and what is left of the
stream is good, what has not arrived yet changes nothing. -/
structure Framed (Good : H → List UInt8 → Prop) : Prop where
  waits : ∀ {h h' : H} {buf rest}, Handshake.advance h buf = .ok (.needMore, h', rest) →
    h' = h ∧ rest = buf
  settles : ∀ {h : H} {buf more}, Good h (buf ++ more) → ¬ NeedsMore (Handshake.advance h buf) →
    Handshake.advance h (buf ++ more) = (Handshake.advance h buf).map (withMore more)
  keeps : ∀ {h h' : H} {stream bytes rest}, Good h stream →
    Handshake.advance h stream = .ok (.write bytes, h', rest) → Good h' rest

/-- What was not read yet stands behind what is handed on. -/
def handedOn : Verdict × Io → Verdict × Io
  | (.established left, io) => (.established (left ++ io.reads.flatten), { io with reads := [] })
  | (verdict, io) => (verdict, { io with reads := [] })

theorem writeAll_reads (io : Io) (reads : List (List UInt8)) (bytes : List UInt8) :
    ({ io with reads } : Io).writeAll bytes =
      ((io.writeAll bytes).1, { (io.writeAll bytes).2 with reads }) := rfl

theorem writeAll_keeps_reads (io : Io) (bytes : List UInt8) :
    (io.writeAll bytes).2.reads = io.reads := rfl

theorem driveLoop_error {h : H} {buf : List UInt8} {io : Io} {e : Error}
    (advanced : Handshake.advance h buf = .error e) : driveLoop h buf io = (.refused e, io) := by
  rw [driveLoop]
  simp only [advanced]

theorem driveLoop_done {h h' : H} {buf rest : List UInt8} {io : Io}
    (advanced : Handshake.advance h buf = .ok (.done, h', rest)) :
    driveLoop h buf io = (.established rest, io) := by
  rw [driveLoop]
  simp only [advanced]

theorem driveLoop_write {h h' : H} {buf bytes rest : List UInt8} {io : Io}
    (advanced : Handshake.advance h buf = .ok (.write bytes, h', rest)) :
    driveLoop h buf io =
      match io.writeAll bytes with
      | (none, io) => (.waiting, io)
      | (some (.error e), io) => (.refused e, io)
      | (some (.ok ()), io) => driveLoop h' rest io := by
  rw [driveLoop]
  simp only [advanced]
  rcases sent : io.writeAll bytes with ⟨_ | _ | _, io'⟩ <;> rfl

theorem driveLoop_needMore {h h' : H} {buf rest : List UInt8} {io : Io}
    (advanced : Handshake.advance h buf = .ok (.needMore, h', rest)) :
    driveLoop h buf io =
      match io.readSome with
      | (none, io) => (.waiting, io)
      | (some (.error e), io) => (.refused e, io)
      | (some (.ok chunk), io) => driveLoop h' (rest ++ chunk) io := by
  rw [driveLoop]
  simp only [advanced]
  rcases took : io.readSome with ⟨_ | _ | _, io'⟩ <;> rfl

/-- However the stream is cut, the driver comes to what it comes to over the whole of it. -/
theorem driveLoop_whole {Good : H → List UInt8 → Prop} (framed : Framed Good) {h : H}
    {buf : List UInt8} {io : Io} (good : Good h (buf ++ io.reads.flatten))
    (some_ : ∀ chunk ∈ io.reads, chunk ≠ []) :
    handedOn (driveLoop h buf io) =
      driveLoop h (buf ++ io.reads.flatten) { io with reads := [] } := by
  induction size : io.left using Nat.strong_induction_on generalizing h buf io with
  | _ n ih =>
  subst size
  by_cases more : NeedsMore (Handshake.advance h buf)
  · obtain ⟨h', rest, advanced⟩ := more
    obtain ⟨rfl, rfl⟩ := framed.waits advanced
    obtain ⟨reads, ending, sink, written⟩ := io
    cases reads with
    | nil =>
        rw [List.flatten_nil, List.append_nil, driveLoop_needMore advanced]
        cases ending <;> rfl
    | cons chunk reads =>
        have here : chunk ≠ [] := some_ chunk List.mem_cons_self
        have took : Io.readSome ⟨chunk :: reads, ending, sink, written⟩ =
            (some (.ok chunk), ⟨reads, ending, sink, written⟩) := if_neg here
        rw [driveLoop_needMore advanced, took]
        dsimp only at good ⊢
        rw [List.flatten_cons, ← List.append_assoc] at good ⊢
        refine ih _ (Io.readSome_left took) good (fun c member => ?_) rfl
        exact some_ c (List.mem_cons_of_mem _ member)
  · have settled := framed.settles good more
    rcases advanced : Handshake.advance h buf with e | ⟨bytes | _ | _, h', rest⟩
    · rw [advanced] at settled
      rw [driveLoop_error advanced, driveLoop_error settled]
      rfl
    · rw [advanced] at settled
      have kept := framed.keeps good settled
      rw [driveLoop_write advanced, driveLoop_write settled, writeAll_reads io []]
      rcases sent : io.writeAll bytes with ⟨_ | _ | _, io'⟩
      · rfl
      · rfl
      · have reads : io'.reads = io.reads := by
          rw [← writeAll_keeps_reads io bytes, sent]
        have whole := ih _ (Io.writeAll_left sent) (by rw [reads]; exact kept)
          (by rw [reads]; exact some_) rfl
        dsimp only [withMore]
        rw [whole, reads]
    · exact absurd ⟨h', rest, advanced⟩ more
    · rw [advanced] at settled
      rw [driveLoop_done advanced, driveLoop_done settled]
      rfl

/-- Bytes that come one at a time where each time more is needed. -/
theorem driveLoop_bytes {h : H} {buf front : List UInt8} (io : Io) (rest : List (List UInt8))
    (more : ∀ k < front.length, Handshake.advance h (buf ++ front.take k) =
      .ok (.needMore, h, buf ++ front.take k)) :
    driveLoop h buf { io with reads := front.map (fun b => [b]) ++ rest } =
      driveLoop h (buf ++ front) { io with reads := rest } := by
  induction front generalizing buf with
  | nil => rw [List.append_nil]; rfl
  | cons b front ih =>
      have first := more 0 (Nat.succ_pos _)
      rw [List.take_zero, List.append_nil] at first
      rw [driveLoop_needMore first]
      change driveLoop h (buf ++ [b]) { io with reads := front.map (fun b => [b]) ++ rest } = _
      rw [ih fun k small => ?_, List.append_assoc, List.singleton_append]
      rw [List.append_assoc, List.singleton_append]
      exact more (k + 1) (Nat.succ_lt_succ small)

/-! ## What is handed on -/

/-- What is left of the stream of a handshake once its replies are taken off the front. -/
structure Leaves (Left : H → List UInt8 → List UInt8 → Prop) : Prop where
  waits : ∀ {h h' : H} {buf rest}, Handshake.advance h buf = .ok (.needMore, h', rest) →
    h' = h ∧ rest = buf
  done : ∀ {h h' : H} {buf rest}, Handshake.advance h buf = .ok (.done, h', rest) →
    ∀ more, Left h (buf ++ more) (rest ++ more)
  wrote : ∀ {h h' : H} {buf bytes rest}, Handshake.advance h buf = .ok (.write bytes, h', rest) →
    ∀ more left, Left h' (rest ++ more) left → Left h (buf ++ more) left

theorem driveLoop_left {Left : H → List UInt8 → List UInt8 → Prop} (leaves : Leaves Left) {h : H}
    {buf left : List UInt8} {io io' : Io} (drove : driveLoop h buf io = (.established left, io')) :
    Left h (buf ++ io.reads.flatten) (left ++ io'.reads.flatten) := by
  induction size : io.left using Nat.strong_induction_on generalizing h buf io with
  | _ n ih =>
  subst size
  rcases advanced : Handshake.advance h buf with e | ⟨bytes | _ | _, h', rest⟩
  · rw [driveLoop_error advanced] at drove
    cases drove
  · rw [driveLoop_write advanced] at drove
    rcases sent : io.writeAll bytes with ⟨_ | _ | _, next⟩
    · rw [sent] at drove; cases drove
    · rw [sent] at drove; cases drove
    · rw [sent] at drove
      have reads : next.reads = io.reads := by rw [← writeAll_keeps_reads io bytes, sent]
      have later := ih _ (Io.writeAll_left sent) drove rfl
      rw [reads] at later
      exact leaves.wrote advanced _ _ later
  · obtain ⟨rfl, rfl⟩ := leaves.waits advanced
    rw [driveLoop_needMore advanced] at drove
    rcases took : io.readSome with ⟨_ | _ | chunk, next⟩
    · rw [took] at drove; cases drove
    · rw [took] at drove; cases drove
    · rw [took] at drove
      have later := ih _ (Io.readSome_left took) drove rfl
      have reads : io.reads = chunk :: next.reads := by
        obtain ⟨reads, ending, sink, written⟩ := io
        cases reads with
        | nil => cases ending <;> cases took
        | cons c reads =>
            simp only [Io.readSome] at took
            split at took <;> cases took
            rfl
      rw [reads, List.flatten_cons, ← List.append_assoc]
      exact later
  · rw [driveLoop_done advanced] at drove
    cases drove
    exact leaves.done advanced _

/-! ## Two ways of cutting -/

def readLen : Nat := 4096

/-- A way of cutting a stream into reads. -/
structure Cut (stream : List UInt8) (reads : List (List UInt8)) : Prop where
  whole : reads.flatten = stream
  some_ : ∀ chunk ∈ reads, chunk ≠ []
  fits : ∀ chunk ∈ reads, chunk.length ≤ readLen

/-- Whatever the cut, the same is written and the verdict is the same, and what is handed on is
followed by the same bytes. -/
def Agree (h : H) (host : Text) (port : UInt16) (io : Io) (stream : List UInt8) : Prop :=
  ∀ reads reads', Cut stream reads → Cut stream reads' →
    handedOn (drive h host port { io with reads }) =
      handedOn (drive h host port { io with reads := reads' })

/-- Where the request is written the handshake goes on with the stream. -/
def Begins (h : H) (host : Text) (port : UInt16) (io : Io) (h' : H) : Prop :=
  ∃ request, Handshake.begin h host port = .ok (request, h') ∧
    (io.writeAll request).1 = some (.ok ())

theorem drive_cases (h : H) (host : Text) (port : UInt16) (io : Io) :
    (∃ (h' : H) (io' : Io), Begins h host port io h' ∧
        ∀ reads, drive h host port { io with reads } = driveLoop h' [] { io' with reads }) ∨
      (∀ h' : H, ¬ Begins h host port io h') ∧ ∃ (verdict : Verdict) (io' : Io),
        (∀ left, verdict ≠ .established left) ∧
        ∀ reads, drive h host port { io with reads } = (verdict, { io' with reads }) := by
  cases begun : Handshake.begin h host port with
  | error e =>
      refine .inr ⟨?_, .refused e, io, nofun, fun reads => ?_⟩
      · rintro h' ⟨request, there, -⟩
        rw [begun] at there
        cases there
      · simp only [drive, begun]
  | ok r =>
      obtain ⟨request, h'⟩ := r
      have no : (io.writeAll request).1 ≠ some (.ok ()) → ∀ h', ¬ Begins h host port io h' := by
        rintro unsent h'' ⟨request', there, sent⟩
        rw [begun] at there
        cases there
        exact unsent sent
      rcases sent : io.writeAll request with ⟨_ | e | _, io'⟩
      · refine .inr ⟨no (by rw [sent]; nofun), .waiting, io', nofun, fun reads => ?_⟩
        simp only [drive, begun]
        rw [writeAll_reads io, sent]
      · refine .inr ⟨no (by rw [sent]; nofun), .refused e, io', nofun, fun reads => ?_⟩
        simp only [drive, begun]
        rw [writeAll_reads io, sent]
      · refine .inl ⟨h', io', ⟨request, begun, by rw [sent]⟩, fun reads => ?_⟩
        simp only [drive, begun]
        rw [writeAll_reads io, sent]

theorem drive_agree {Good : H → List UInt8 → Prop} (framed : Framed Good) {h : H} {host : Text}
    {port : UInt16} {io : Io} {stream : List UInt8}
    (good : ∀ h', Begins h host port io h' → Good h' stream) : Agree h host port io stream := by
  intro reads reads' cut cut'
  obtain ⟨h', io', begins, drove⟩ | ⟨-, verdict, io', -, drove⟩ := drive_cases h host port io
  · have whole : ∀ reads, Cut stream reads → handedOn (driveLoop h' [] { io' with reads }) =
        driveLoop h' stream { io' with reads := [] } := by
      intro reads cut
      have here : Good h' ([] ++ ({ io' with reads } : Io).reads.flatten) := by
        change Good h' reads.flatten
        rw [cut.whole]
        exact good h' begins
      rw [driveLoop_whole framed here cut.some_]
      change driveLoop h' reads.flatten _ = _
      rw [cut.whole]
    rw [drove, drove, whole reads cut, whole reads' cut']
  · rw [drove, drove]
    cases verdict with
    | established left => simp only [handedOn, cut.whole, cut'.whole]
    | refused e => rfl
    | waiting => rfl

theorem drive_left {Left : H → List UInt8 → List UInt8 → Prop} (leaves : Leaves Left) {h : H}
    {host : Text} {port : UInt16} {io io' : Io} {stream left : List UInt8}
    {reads : List (List UInt8)} (cut : Cut stream reads)
    (drove : drive h host port { io with reads } = (.established left, io')) :
    ∃ h', Begins h host port io h' ∧ Left h' stream (left ++ io'.reads.flatten) := by
  obtain ⟨h', next, begins, same⟩ | ⟨-, verdict, next, never, same⟩ :=
    drive_cases h host port io
  · rw [same] at drove
    refine ⟨h', begins, ?_⟩
    rw [← cut.whole]
    exact driveLoop_left leaves drove
  · rw [same] at drove
    cases drove
    exact absurd rfl (never left)

end HClient.Proxy
