import HClient.Core.Bytes
import HClient.Core.Poll
import HClient.Core.Tlv

/-!
# The end of a session

A session ends with a capsule on the stream it was opened on, or with the stream. Whoever waits
for the end reads that stream, skips every other capsule, and remembers the answer.
-/
namespace HClient.WebTransport

/-! ## Integers -/

/-- The shortest of the four lengths; what has no encoding is written as the largest that has. -/
def putVarint (v : Nat) : List UInt8 :=
  if v < 2 ^ 6 then [UInt8.ofNat v]
  else if v < 2 ^ 14 then toBe 2 (v ||| 0b01 <<< 14)
  else if v < 2 ^ 30 then toBe 4 (v ||| 0b10 <<< 30)
  else toBe 8 (min v (2 ^ 62 - 1) ||| 0b11 <<< 62)

def getVarint (buf : List UInt8) : Option (Nat × Nat) := Varint.read buf

/-! ## Capsules -/

/-- The type of the capsule that closes a session. -/
def closeWebtransportSession : Nat := 0x2843

structure SessionClose where
  code : UInt32
  reason : Text
  deriving DecidableEq, Repr

def SessionClose.endedWithoutACapsule : SessionClose := ⟨0, []⟩

inductive BadCloseCapsule where
  | noErrorCode (payload : Nat)
  | reasonTooLong (len : Nat)
  | reasonNotUtf8
  | truncated (have_ : Nat)
  deriving DecidableEq, Repr

def maxReason : Nat := 1024

def closeCapsule (errorCode : UInt32) (reason : Text) : List UInt8 :=
  let payload := 4 + (Bytes.utf8 reason).length
  putVarint closeWebtransportSession ++ putVarint payload ++
    (toBe 4 errorCode.toNat ++ Bytes.utf8 reason)

inductive Taken where
  | close (close : SessionClose)
  | skipped
  | more
  | bad (bad : BadCloseCapsule)
  deriving DecidableEq, Repr

def readClose (payload : List UInt8) : Taken :=
  if payload.length < 4 then .bad (.noErrorCode payload.length)
  else
    let code := payload.take 4
    let reason := payload.drop 4
    if maxReason < reason.length then .bad (.reasonTooLong reason.length)
    else
      match Bytes.fromUtf8 reason with
      | none => .bad .reasonNotUtf8
      | some reason => .close ⟨UInt32.ofNat (fromBe 0 code), reason⟩

/-- The largest length that a buffer may have. -/
def usizeMax : Nat := 2 ^ 64 - 1

/-- Exactly one capsule leaves the buffer, once all of it is there. -/
def takeCapsule (buf : List UInt8) : Taken × List UInt8 :=
  match getVarint buf with
  | none => (.more, buf)
  | some (kind, kindLen) =>
      match getVarint (buf.drop kindLen) with
      | none => (.more, buf)
      | some (length, lengthLen) =>
          let start := kindLen + lengthLen
          let stop := start + length
          -- a length that cannot be waited for
          if usizeMax < stop then (.more, buf)
          else if buf.length < stop then (.more, buf)
          else
            let taken :=
              if kind = closeWebtransportSession then readClose ((buf.take stop).drop start)
              else .skipped
            (taken, buf.drop stop)

/-! ## Waiting for the end -/

inductive EndError where
  | body (bad : BadCloseCapsule)
  | stream (message : Text)
  deriving DecidableEq, Repr

abbrev Ended : Type := Except EndError SessionClose

/-- What the stream answers a poll with: bytes, its end, or why it is lost. -/
abbrev Recv : Type := Poll (Except Text (Option (List UInt8)))

structure CloseWatch where
  buf : List UInt8
  ended : Option Ended

def CloseWatch.new : CloseWatch := ⟨[], none⟩

/-- The front of the buffer without the capsules that are skipped. -/
def takePast : Nat → List UInt8 → Taken × List UInt8
  | 0, buf => (.more, buf)
  | fuel + 1, buf =>
      match takeCapsule buf with
      | (.skipped, buf) => takePast fuel buf
      | taken => taken

/-- One poll over what the stream goes on to answer. -/
def pollStream (buf : List UInt8) (stream : List Recv) : Poll Ended × List UInt8 × List Recv :=
  match takePast (buf.length + 1) buf with
  | (.close close, buf) => (.ready (.ok close), buf, stream)
  | (.bad bad, buf) => (.ready (.error (.body bad)), buf, stream)
  | (_, buf) =>
      match stream with
      | [] => (.pending, buf, [])
      | .pending :: stream => (.pending, buf, stream)
      | .ready (.ok (some data)) :: stream => pollStream (buf ++ data) stream
      | .ready (.ok none) :: stream =>
          (.ready (if buf = [] then .ok .endedWithoutACapsule
            else .error (.body (.truncated buf.length))), buf, stream)
      | .ready (.error e) :: stream => (.ready (.error (.stream e)), buf, stream)

/-- The end is remembered. -/
def CloseWatch.poll (watch : CloseWatch) (stream : List Recv) :
    Poll Ended × CloseWatch × List Recv :=
  match watch.ended with
  | some ended => (.ready ended, watch, stream)
  | none =>
      match pollStream watch.buf stream with
      | (.pending, buf, stream) => (.pending, ⟨buf, none⟩, stream)
      | (.ready ended, buf, stream) => (.ready ended, ⟨buf, some ended⟩, stream)

/-- What each poll of the futures that wait for the end answers, in the order of the polls. -/
def closed (watch : CloseWatch) (stream : List Recv) : Nat → Poll Ended
  | 0 => (watch.poll stream).1
  | n + 1 => closed (watch.poll stream).2.1 (watch.poll stream).2.2 n

/-! ## The end of a stream of bytes -/

/-- A close capsule that cannot be honoured. -/
inductive Malformed : List UInt8 → BadCloseCapsule → Prop
  | noErrorCode {payload : List UInt8} (short : payload.length < 4) :
      Malformed payload (.noErrorCode payload.length)
  | reasonTooLong {code reason : List UInt8} (four : code.length = 4)
      (long : maxReason < reason.length) : Malformed (code ++ reason) (.reasonTooLong reason.length)
  | reasonNotUtf8 {code reason : List UInt8} (four : code.length = 4)
      (fits : reason.length ≤ maxReason) (other : ∀ text, reason ≠ Bytes.utf8 text) :
      Malformed (code ++ reason) .reasonNotUtf8

/-- No whole capsule stands at the front. -/
def Unfinished (bytes : List UInt8) : Prop :=
  ∀ capsule rest kind value, Tlv.Spells capsule kind value → bytes ≠ capsule ++ rest

/-- The end of a session whose stream carried these bytes and then ended or was lost. -/
inductive Ends : List UInt8 → Except Text Unit → Ended → Prop
  | skipped {capsule rest value : List UInt8} {kind : Nat} {ending : Except Text Unit}
      {ended : Ended} (spells : Tlv.Spells capsule kind value)
      (other : kind ≠ closeWebtransportSession) (later : Ends rest ending ended) :
      Ends (capsule ++ rest) ending ended
  | closed {capsule rest : List UInt8} {ending : Except Text Unit} {close : SessionClose}
      (spells : Tlv.Spells capsule closeWebtransportSession
        (toBe 4 close.code.toNat ++ Bytes.utf8 close.reason))
      (fits : (Bytes.utf8 close.reason).length ≤ maxReason) :
      Ends (capsule ++ rest) ending (.ok close)
  | bad {capsule rest value : List UInt8} {ending : Except Text Unit} {bad : BadCloseCapsule}
      (spells : Tlv.Spells capsule closeWebtransportSession value)
      (malformed : Malformed value bad) : Ends (capsule ++ rest) ending (.error (.body bad))
  | clean : Ends [] (.ok ()) (.ok .endedWithoutACapsule)
  | truncated {bytes : List UInt8} (part : bytes ≠ []) (unfinished : Unfinished bytes) :
      Ends bytes (.ok ()) (.error (.body (.truncated bytes.length)))
  | lost {bytes : List UInt8} {e : Text} (unfinished : Unfinished bytes) :
      Ends bytes (.error e) (.error (.stream e))

/-! ## Reading a capsule -/

theorem readClose_close {close : SessionClose} (fits : (Bytes.utf8 close.reason).length ≤ maxReason) :
    readClose (toBe 4 close.code.toNat ++ Bytes.utf8 close.reason) = .close close := by
  have code : (toBe 4 close.code.toNat ++ Bytes.utf8 close.reason).take 4 =
      toBe 4 close.code.toNat := List.take_left' (length_toBe 4 _)
  have reason : (toBe 4 close.code.toNat ++ Bytes.utf8 close.reason).drop 4 =
      Bytes.utf8 close.reason := List.drop_left' (length_toBe 4 _)
  have long : ¬ (toBe 4 close.code.toNat ++ Bytes.utf8 close.reason).length < 4 := by
    rw [List.length_append, length_toBe]
    omega
  have small : close.code.toNat < 256 ^ 4 := close.code.toNat_lt
  have whole : fromBe 0 (toBe 4 close.code.toNat) = close.code.toNat := by
    rw [fromBe_toBe, Nat.zero_mul, Nat.zero_add, Nat.mod_eq_of_lt small]
  unfold readClose
  rw [if_neg long, code, reason]
  dsimp only
  rw [if_neg (by omega), Bytes.fromUtf8_utf8, whole]
  dsimp only
  rw [UInt32.ofNat_toNat]

/-- What a close capsule is read as, and why. -/
theorem readClose_cases (payload : List UInt8) :
    (∃ bad, readClose payload = .bad bad ∧ Malformed payload bad) ∨
      ∃ close : SessionClose, readClose payload = .close close ∧
        payload = toBe 4 close.code.toNat ++ Bytes.utf8 close.reason ∧
        (Bytes.utf8 close.reason).length ≤ maxReason := by
  unfold readClose
  split
  next short => exact .inl ⟨_, rfl, .noErrorCode short⟩
  next long =>
    have four : (payload.take 4).length = 4 := by rw [List.length_take]; omega
    dsimp only
    split
    next long =>
      have bad := Malformed.reasonTooLong four long
      rw [List.take_append_drop] at bad
      exact .inl ⟨_, rfl, bad⟩
    next fits =>
      have fits := Nat.le_of_not_lt fits
      cases decoded : Bytes.fromUtf8 (payload.drop 4) with
      | none =>
          have bad := Malformed.reasonNotUtf8 four fits fun text same => by
            rw [same, Bytes.fromUtf8_utf8] at decoded
            cases decoded
          rw [List.take_append_drop] at bad
          exact .inl ⟨_, rfl, bad⟩
      | some reason =>
          have bytes := Bytes.eq_utf8_of_fromUtf8 decoded
          refine .inr ⟨_, rfl, ?_, ?_⟩
          · have small := fromBe_lt 0 (payload.take 4)
            rw [four] at small
            have whole := toBe_fromBe 0 (payload.take 4)
            rw [four] at whole
            rw [UInt32.toNat_ofNat_of_lt' (by simpa using small), whole, ← bytes,
              List.take_append_drop]
          · rw [← bytes]
            exact fits

theorem Malformed.readClose {payload : List UInt8} {bad : BadCloseCapsule}
    (malformed : Malformed payload bad) : readClose payload = .bad bad := by
  cases malformed with
  | noErrorCode short => exact if_pos short
  | reasonTooLong four long =>
      rename_i code reason
      have enough : ¬ (code ++ reason).length < 4 := by rw [List.length_append]; omega
      unfold WebTransport.readClose
      rw [if_neg enough, List.drop_left' four]
      dsimp only
      rw [if_pos long]
  | reasonNotUtf8 four fits other =>
      rename_i code reason
      have enough : ¬ (code ++ reason).length < 4 := by rw [List.length_append]; omega
      have none : Bytes.fromUtf8 reason = none := by
        cases decoded : Bytes.fromUtf8 reason with
        | none => rfl
        | some text => exact absurd (Bytes.eq_utf8_of_fromUtf8 decoded) (other text)
      unfold WebTransport.readClose
      rw [if_neg enough, List.drop_left' four]
      dsimp only
      rw [if_neg (by omega), none]

theorem or_shift {v t s : Nat} (fits : v < 2 ^ s) : v ||| t <<< s = v + t * 2 ^ s := by
  rw [Nat.or_comm, ← Nat.shiftLeft_add_eq_or_of_lt fits, Nat.shiftLeft_eq, Nat.add_comm]

theorem putVarint_eq {v : Nat} (fits : v < 2 ^ 62) : putVarint v = Varint.write v := by
  rw [Varint.write_eq]
  unfold putVarint Varint.tag
  by_cases one : v < 2 ^ 6
  · rw [if_pos one, if_pos one]
    change [UInt8.ofNat v] = [UInt8.ofNat ((v + 0 * 64 * 1) / 1)]
    rw [Nat.div_one, Nat.zero_mul, Nat.add_zero]
  rw [if_neg one, if_neg one]
  by_cases two : v < 2 ^ 14
  · rw [if_pos two, if_pos two, or_shift two]
    rfl
  rw [if_neg two, if_neg two]
  by_cases four : v < 2 ^ 30
  · rw [if_pos four, if_pos four, or_shift four]
    rfl
  · have least : min v (2 ^ 62 - 1) = v := by omega
    rw [if_neg four, if_neg four, least, or_shift fits]
    rfl

/-- What is taken for a whole capsule. -/
def taken (kind : Nat) (value : List UInt8) : Taken :=
  if kind = closeWebtransportSession then readClose value else .skipped

theorem takeCapsule_eq (buf : List UInt8) :
    takeCapsule buf = match Tlv.front buf with
      | none => (.more, buf)
      | some (kind, value, n) => (taken kind value, buf.drop n) := by
  unfold takeCapsule Tlv.front getVarint
  cases first : Varint.read buf with
  | none => rfl
  | some r =>
      obtain ⟨kind, kindLen⟩ := r
      simp only [Option.bind_some]
      cases second : Varint.read (buf.drop kindLen) with
      | none => rfl
      | some r =>
          obtain ⟨length, lengthLen⟩ := r
          simp only [Option.bind_some]
          have slice : (buf.take (kindLen + lengthLen + length)).drop (kindLen + lengthLen) =
              (buf.drop (kindLen + lengthLen)).take length := by
            rw [List.drop_take, Nat.add_sub_cancel_left]
          -- a capsule that has arrived is one that could be waited for
          by_cases enough : buf.length < kindLen + lengthLen + length
          · rw [if_pos enough, if_pos enough, ite_self]
          · have small := (Varint.length_write_le second).2
            have one := Varint.read_len_le first
            have two := Varint.read_len_le second
            have representable : ¬ usizeMax < kindLen + lengthLen + length := by
              unfold usizeMax
              omega
            rw [if_neg enough, if_neg enough, if_neg representable, slice]
            rfl

/-! ## The end as a function of the bytes -/

def framer : Framer UInt8 Taken := Tlv.framer taken

def Taken.ended : Taken → Option Ended
  | .close c => some (.ok c)
  | .bad b => some (.error (.body b))
  | .skipped => none
  | .more => none

/-- The end with these bytes after the last whole capsule. -/
def endOf (left : List UInt8) : Except Text Unit → Ended
  | .ok () =>
      if left = [] then .ok .endedWithoutACapsule else .error (.body (.truncated left.length))
  | .error e => .error (.stream e)

def closeOf (bytes : List UInt8) (ending : Except Text Unit) : Ended :=
  ((framer.drain bytes).1.findSome? Taken.ended).getD (endOf (framer.drain bytes).2 ending)

theorem closeOf_wait {bytes : List UInt8} (waits : framer.take bytes = none)
    (ending : Except Text Unit) : closeOf bytes ending = endOf bytes ending := by
  rw [closeOf, Framer.drain_none waits]
  rfl

theorem closeOf_ended {bytes : List UInt8} {t : Taken} {n : Nat} {ended : Ended}
    (there : framer.take bytes = some (t, n)) (ends : t.ended = some ended)
    (ending : Except Text Unit) : closeOf bytes ending = ended := by
  rw [closeOf, Framer.drain_some there, prepend_fst, List.singleton_append,
    List.findSome?_cons, ends]
  rfl

theorem closeOf_skipped {bytes : List UInt8} {n : Nat}
    (there : framer.take bytes = some (.skipped, n)) (ending : Except Text Unit) :
    closeOf bytes ending = closeOf (bytes.drop n) ending := by
  rw [closeOf, Framer.drain_some there, prepend_fst, prepend_snd, List.singleton_append,
    List.findSome?_cons]
  rfl

theorem unfinished_iff {bytes : List UInt8} : Unfinished bytes ↔ framer.take bytes = none := by
  rw [framer, Tlv.take_framer, Option.map_eq_none_iff]
  constructor
  · intro unfinished
    by_contra there
    obtain ⟨⟨kind, value, n⟩, there⟩ := Option.ne_none_iff_exists'.mp there
    exact unfinished _ _ _ _ (Tlv.spells_of_front there) (List.take_append_drop n bytes).symm
  · rintro waits capsule rest kind value spells rfl
    rw [Tlv.front_settles.some_of (Tlv.front_of_spells spells)] at waits
    cases waits

theorem take_spells {capsule value : List UInt8} {kind : Nat}
    (spells : Tlv.Spells capsule kind value) (rest : List UInt8) :
    framer.take (capsule ++ rest) = some (taken kind value, capsule.length) := by
  rw [framer, Tlv.take_framer, Tlv.front_settles.some_of (Tlv.front_of_spells spells)]
  rfl

theorem Ends.eq_closeOf {bytes : List UInt8} {ending : Except Text Unit} {ended : Ended}
    (said : Ends bytes ending ended) : ended = closeOf bytes ending := by
  induction said with
  | @skipped _ rest _ _ _ _ spells other later ih =>
      have there := take_spells spells rest
      rw [taken, if_neg other] at there
      rw [closeOf_skipped there, List.drop_left]
      exact ih
  | @closed _ rest _ _ spells fits =>
      have there := take_spells spells rest
      rw [taken, if_pos rfl, readClose_close fits] at there
      exact (closeOf_ended there rfl _).symm
  | @bad _ rest _ _ _ spells malformed =>
      have there := take_spells spells rest
      rw [taken, if_pos rfl, malformed.readClose] at there
      exact (closeOf_ended there rfl _).symm
  | clean => rfl
  | truncated part unfinished =>
      rw [closeOf_wait (unfinished_iff.mp unfinished), endOf, if_neg part]
  | lost unfinished => rw [closeOf_wait (unfinished_iff.mp unfinished), endOf]

theorem ends_closeOf (bytes : List UInt8) (ending : Except Text Unit) :
    Ends bytes ending (closeOf bytes ending) := by
  induction len : bytes.length using Nat.strong_induction_on generalizing bytes with
  | _ k ih =>
      cases there : Tlv.front bytes with
      | none =>
          have waits : framer.take bytes = none := by rw [framer, Tlv.take_framer, there]; rfl
          have unfinished := unfinished_iff.mpr waits
          rw [closeOf_wait waits]
          match ending with
          | .error e => exact .lost unfinished
          | .ok () =>
              by_cases empty : bytes = []
              · subst empty
                exact .clean
              · rw [endOf, if_neg empty]
                exact .truncated empty unfinished
      | some r =>
          obtain ⟨kind, value, n⟩ := r
          have spells := Tlv.spells_of_front there
          have take : framer.take bytes = some (taken kind value, n) := by
            rw [framer, Tlv.take_framer, there]; rfl
          have whole : bytes = bytes.take n ++ bytes.drop n := (List.take_append_drop n bytes).symm
          by_cases close : kind = closeWebtransportSession
          · subst close
            rw [taken, if_pos rfl] at take
            obtain ⟨bad, read, malformed⟩ | ⟨close, read, rfl, fits⟩ := readClose_cases value
            · rw [read] at take
              rw [closeOf_ended take rfl, whole]
              exact .bad spells malformed
            · rw [read] at take
              rw [closeOf_ended take rfl, whole]
              exact .closed spells fits
          · rw [taken, if_neg close] at take
            rw [closeOf_skipped take]
            have later := ih _ (len ▸ Framer.length_drop take) (bytes.drop n) rfl
            conv => arg 1; rw [whole]
            exact .skipped spells close later

/-! ## What the polls answer -/

/-- What arrives before the end: bytes, or nothing yet. -/
abbrev Arrivals : Type := List (Option (List UInt8))

def arrival : Option (List UInt8) → Recv
  | none => .pending
  | some data => .ready (.ok (some data))

def endRecv : Except Text Unit → Recv
  | .ok () => .ready (.ok none)
  | .error e => .ready (.error e)

/-- What the stream answers one poll after another, whatever it would answer after its end. -/
def streamOf (arrivals : Arrivals) (ending : Except Text Unit) (after : List Recv) : List Recv :=
  arrivals.map arrival ++ endRecv ending :: after

def bytesOf (arrivals : Arrivals) : List UInt8 := (arrivals.filterMap id).flatten

/-- A capsule that is skipped leaves what the rest says unchanged; another one is the end. -/
theorem takePast_cases {fuel : Nat} {buf : List UInt8} (enough : buf.length < fuel) :
    (∃ t left ended, takePast fuel buf = (t, left) ∧ t.ended = some ended ∧
        ∀ more ending, closeOf (buf ++ more) ending = ended) ∨
      ∃ left, takePast fuel buf = (.more, left) ∧ framer.take left = none ∧
        ∀ more ending, closeOf (buf ++ more) ending = closeOf (left ++ more) ending := by
  induction fuel generalizing buf with
  | zero => omega
  | succ fuel ih =>
      rw [takePast, takeCapsule_eq]
      cases there : Tlv.front buf with
      | none =>
          refine .inr ⟨buf, rfl, ?_, fun _ _ => rfl⟩
          rw [framer, Tlv.take_framer, there]
          rfl
      | some r =>
          obtain ⟨kind, value, n⟩ := r
          have take : framer.take buf = some (taken kind value, n) := by
            rw [framer, Tlv.take_framer, there]; rfl
          have fits := framer.fits take
          have shorter := Framer.length_drop take
          dsimp only
          by_cases close : kind = closeWebtransportSession
          · obtain ⟨bad, read, -⟩ | ⟨close', read, -, -⟩ := readClose_cases value <;>
              rw [taken, if_pos close, read] at take <;>
              rw [taken, if_pos close, read] <;>
              exact .inl ⟨_, _, _, rfl, rfl, fun more ending =>
                closeOf_ended (framer.settles.some_of take more) rfl ending⟩
          · rw [taken, if_neg close] at take ⊢
            have skip : ∀ more ending,
                closeOf (buf ++ more) ending = closeOf (buf.drop n ++ more) ending := by
              intro more ending
              rw [closeOf_skipped (framer.settles.some_of take more),
                List.drop_append_of_le_length fits]
            obtain ⟨t, left, ended, taken, ends, same⟩ | ⟨left, taken, waits, same⟩ :=
              @ih (buf.drop n) (by omega)
            · exact .inl ⟨t, left, ended, taken, ends, fun more ending =>
                (skip more ending).trans (same more ending)⟩
            · exact .inr ⟨left, taken, waits, fun more ending =>
                (skip more ending).trans (same more ending)⟩

theorem pollStream_ended {buf left : List UInt8} {t : Taken} {ended : Ended}
    (past : takePast (buf.length + 1) buf = (t, left)) (ends : t.ended = some ended)
    (stream : List Recv) : (pollStream buf stream).1 = .ready ended := by
  unfold pollStream
  rw [past]
  cases t <;> cases ends <;> rfl

theorem pollStream_more {buf left : List UInt8}
    (past : takePast (buf.length + 1) buf = (.more, left)) (stream : List Recv) :
    pollStream buf stream = match stream with
      | [] => (.pending, left, [])
      | .pending :: stream => (.pending, left, stream)
      | .ready (.ok (some data)) :: stream => pollStream (left ++ data) stream
      | .ready (.ok none) :: stream => (.ready (endOf left (.ok ())), left, stream)
      | .ready (.error e) :: stream => (.ready (endOf left (.error e)), left, stream) := by
  conv_lhs => unfold pollStream
  rw [past]
  rfl

/-- A poll answers with the end of the whole stream, or waits with the same end ahead of it. -/
theorem pollStream_cases (arrivals : Arrivals) (ending : Except Text Unit) (after : List Recv)
    (buf : List UInt8) :
    (pollStream buf (streamOf arrivals ending after)).1 =
        .ready (closeOf (buf ++ bytesOf arrivals) ending) ∨
      ∃ left later, pollStream buf (streamOf arrivals ending after) =
          (.pending, left, streamOf later ending after) ∧
        later.count none < arrivals.count none ∧
        closeOf (left ++ bytesOf later) ending = closeOf (buf ++ bytesOf arrivals) ending := by
  induction arrivals generalizing buf with
  | nil =>
      obtain ⟨t, left, ended, past, ends, same⟩ | ⟨left, past, waits, same⟩ :=
        takePast_cases (Nat.lt_succ_self buf.length)
      · exact .inl (by rw [pollStream_ended past ends, same])
      · have whole : closeOf (buf ++ bytesOf []) ending = endOf left ending := by
          rw [same, bytesOf, List.filterMap_nil, List.flatten_nil, List.append_nil,
            closeOf_wait waits]
        rw [whole, pollStream_more past]
        cases ending <;> exact .inl rfl
  | cons a arrivals ih =>
      obtain ⟨t, left, ended, past, ends, same⟩ | ⟨left, past, waits, same⟩ :=
        takePast_cases (Nat.lt_succ_self buf.length)
      · exact .inl (by rw [pollStream_ended past ends, same])
      · cases a with
        | none =>
            refine .inr ⟨left, arrivals, pollStream_more past _, ?_, (same _ _).symm⟩
            rw [List.count_cons_self]
            exact Nat.lt_succ_self _
        | some data =>
            have next := pollStream_more past (streamOf (some data :: arrivals) ending after)
            have bytes : left ++ bytesOf (some data :: arrivals) =
                left ++ data ++ bytesOf arrivals := by
              rw [List.append_assoc]
              rfl
            rw [next, same, bytes, List.count_cons_of_ne (by simp)]
            exact ih (left ++ data)

/-- Once an end has been answered it is answered at every later poll. -/
theorem closed_of_ended {watch : CloseWatch} {ended : Ended} (there : watch.ended = some ended)
    (stream : List Recv) (n : Nat) : closed watch stream n = .ready ended := by
  have poll : watch.poll stream = (.ready ended, watch, stream) := by
    rw [CloseWatch.poll, there]
  induction n with
  | zero => rw [closed, poll]
  | succ n ih => rw [closed, poll]; exact ih

theorem poll_ready {buf : List UInt8} {stream : List Recv} {ended : Ended}
    (ready : (pollStream buf stream).1 = .ready ended) (n : Nat) :
    closed ⟨buf, none⟩ stream n = .ready ended := by
  obtain ⟨left, later, poll⟩ : ∃ left later,
      (CloseWatch.mk buf none).poll stream = (.ready ended, ⟨left, some ended⟩, later) := by
    unfold CloseWatch.poll
    dsimp only
    generalize pollStream buf stream = r at ready
    obtain ⟨answer, left, later⟩ := r
    cases ready
    exact ⟨left, later, rfl⟩
  cases n with
  | zero => rw [closed, poll]
  | succ n =>
      rw [closed, poll]
      exact closed_of_ended rfl later n

/-- The polls wait until one of them answers with the end, and every later one does too. -/
theorem closed_cases (arrivals : Arrivals) (ending : Except Text Unit) (after : List Recv)
    (buf : List UInt8) : ∃ first ≤ arrivals.count none,
      (∀ n < first, closed ⟨buf, none⟩ (streamOf arrivals ending after) n = .pending) ∧
      ∀ n, first ≤ n → closed ⟨buf, none⟩ (streamOf arrivals ending after) n =
        .ready (closeOf (buf ++ bytesOf arrivals) ending) := by
  induction waits : arrivals.count none using Nat.strong_induction_on
      generalizing arrivals buf with
  | _ k ih =>
      obtain ready | ⟨left, later, pending, fewer, same⟩ :=
        pollStream_cases arrivals ending after buf
      · exact ⟨0, Nat.zero_le _, fun n short => absurd short (Nat.not_lt_zero n),
          fun n _ => poll_ready ready n⟩
      · obtain ⟨first, bound, before, onward⟩ := ih _ (waits ▸ fewer) later left rfl
        have poll : (CloseWatch.mk buf none).poll (streamOf arrivals ending after) =
            (.pending, ⟨left, none⟩, streamOf later ending after) := by
          unfold CloseWatch.poll
          dsimp only
          rw [pending]
        refine ⟨first + 1, by omega, fun n short => ?_, fun n long => ?_⟩
        · cases n with
          | zero => rw [closed, poll]
          | succ n => rw [closed, poll]; exact before n (by omega)
        · obtain ⟨n, rfl⟩ := Nat.exists_eq_add_of_le' (Nat.lt_of_lt_of_le (Nat.succ_pos first) long)
          rw [Nat.add_one, closed, poll, ← same]
          exact onward n (by omega)

theorem spells_closeCapsule {errorCode : UInt32} {reason : Text}
    (fits : (Bytes.utf8 reason).length ≤ maxReason) :
    Tlv.Spells (closeCapsule errorCode reason) closeWebtransportSession
      (toBe 4 errorCode.toNat ++ Bytes.utf8 reason) := by
  have length : (toBe 4 errorCode.toNat ++ Bytes.utf8 reason).length =
      4 + (Bytes.utf8 reason).length := by rw [List.length_append, length_toBe]
  have small : 4 + (Bytes.utf8 reason).length < 2 ^ 62 := by
    unfold maxReason at fits
    omega
  refine ⟨_, _, rfl, ?_, ?_⟩
  · rfl
  · rw [length, putVarint_eq small]
    have whole := Varint.read_write small []
    rw [List.append_nil] at whole
    exact whole

/-- Waiting for the end of a session answers with what the bytes of its stream and the end of the
stream say, however the bytes arrive, and keeps to it; a close that was written is read back. -/
theorem closed_answers (arrivals : Arrivals) (ending : Except Text Unit) (after : List Recv) :
    ∃ ended, (∀ other, Ends (bytesOf arrivals) ending other ↔ other = ended) ∧
      (∃ first ≤ arrivals.count none,
        (∀ n < first, closed .new (streamOf arrivals ending after) n = .pending) ∧
        ∀ n, first ≤ n → closed .new (streamOf arrivals ending after) n = .ready ended) ∧
      ∀ errorCode reason, (Bytes.utf8 reason).length ≤ maxReason →
        ∀ rest, bytesOf arrivals = closeCapsule errorCode reason ++ rest →
          ended = .ok ⟨errorCode, reason⟩ := by
  refine ⟨closeOf (bytesOf arrivals) ending, fun other => ⟨Ends.eq_closeOf, ?_⟩,
    closed_cases arrivals ending after [], fun errorCode reason fits rest bytes => ?_⟩
  · rintro rfl
    exact ends_closeOf _ ending
  · rw [bytes]
    have ends : Ends (closeCapsule errorCode reason ++ rest) ending (.ok ⟨errorCode, reason⟩) :=
      .closed (spells_closeCapsule fits) fits
    exact ends.eq_closeOf.symm

end HClient.WebTransport
