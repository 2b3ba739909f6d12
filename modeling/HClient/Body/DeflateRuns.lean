import HClient.Body.Deflate
import HClient.Effect.Turns

/-!
# Cuts of a `deflate` body

What the decoder holds after any pushes is said by the bytes that they gave together, and so is the
verdict at the end: how a body was cut does not show in it.
-/
namespace HClient.Body.DeflateStream

open Decompress Effect

variable {σ : Type} {d : Decompress σ} {complete : Bool → List UInt8 → Prop}
  {produced : Bool → List UInt8 → List UInt8} {zlib : Bool}

/-- A body that begins with the two bytes of a zlib header. -/
def ReadAsZlib (s : List UInt8) : Prop :=
  ∃ cmf flg rest, s = cmf :: flg :: rest ∧ looksLikeZlib cmf flg = true

/-- Where the first block of a raw stream is stored, the bits up to the next byte are zero. -/
def Padded (s : List UInt8) : Prop := ∀ b ∈ s.head?, b >>> 1 &&& 3 = 0 → b >>> 3 = 0

/-- The body is one complete stream of the format that it is read as, and this is its plaintext. -/
def Decodes (complete : Bool → List UInt8 → Prop) (produced : Bool → List UInt8 → List UInt8)
    (s p : List UInt8) : Prop :=
  (complete true s ∧ p = produced true s) ∨
    (complete false s ∧ ¬ ReadAsZlib s ∧ p = produced false s)

/-! ## The loop -/

/-- The decompressor behind the bytes `s`, of which `y` was handed out. -/
inductive Going (d : Decompress σ) (complete : Bool → List UInt8 → Prop)
    (produced : Bool → List UInt8 → List UInt8) (flush : FlushDecompress) (zlib : Bool) :
    List UInt8 → List UInt8 → σ → Bool → Prop
  | open_ {s y : List UInt8} {dec : σ} : Reaches d zlib flush s y dec → ¬ complete zlib s →
      Going d complete produced flush zlib s y dec false
  | done {s : List UInt8} {dec : σ} : complete zlib s →
      Going d complete produced flush zlib s (produced zlib s) dec true

/-- What a call that was given the last of `s` comes to, where `y` was handed out before. -/
inductive Outcome (d : Decompress σ) (complete : Bool → List UInt8 → Prop)
    (produced : Bool → List UInt8 → List UInt8) (flush : FlushDecompress) (zlib : Bool)
    (s y : List UInt8) : Except Text (List UInt8) × DeflateStream σ → Prop
  | ok {out : List UInt8} {dec : σ} {done : Bool} :
      Going d complete produced flush zlib s (y ++ out) dec done →
      Outcome d complete produced flush zlib s y (.ok out, .running dec [] done)
  | error {e : Text} {stream : DeflateStream σ} :
      (∀ more, (flush = .finish → more = []) → ¬ complete zlib (s ++ more)) →
      Outcome d complete produced flush zlib s y (.error e, stream)

/-- Nothing can follow a complete stream. -/
theorem not_complete_behind (st : Streaming d complete produced) {s rest : List UInt8}
    (whole : complete zlib s) (some_ : rest ≠ []) (more : List UInt8) :
    ¬ complete zlib (s ++ rest ++ more) := by
  intro longer
  rw [List.append_assoc] at longer
  have nothing := st.selfEnding zlib s _ whole longer
  exact some_ (List.append_eq_nil_iff.mp nothing).1

theorem leave_done (st : Streaming d complete produced) {flush : FlushDecompress}
    {s y out rest : List UInt8} {dec : σ} (whole : complete zlib s)
    (all : y ++ out = produced zlib s) :
    Outcome d complete produced flush zlib (s ++ rest) y (leave dec out true rest) := by
  unfold leave
  split_ifs with behind
  · exact .error fun more _ => not_complete_behind st whole behind.2 more
  · have none_ : rest = [] := by simpa using behind
    subst none_
    rw [List.append_nil]
    exact .ok (all ▸ .done whole)

/-- What the loop has left is given with the same flush as before. -/
theorem orderly_drop {before flush : FlushDecompress} {bytes : List UInt8}
    (orderly : Orderly before flush bytes) (n : Nat) : Orderly flush flush (bytes.drop n) := by
  refine ⟨id, fun last => ?_⟩
  rw [orderly.2 last, List.drop_nil]

theorem drive_outcome (st : Streaming d complete produced) {before flush : FlushDecompress}
    {fed y out bytes : List UInt8} {dec : σ} (reaches : Reaches d zlib before fed (y ++ out) dec)
    (orderly : Orderly before flush bytes) :
    ∃ r, Yields (fun fuel => drive d flush fuel dec out false bytes) r ∧
      Outcome d complete produced flush zlib (fed ++ bytes) y r := by
  -- every call that goes on reads a byte, or writes one of those that all the bytes produce
  induction left : bytes.length + ((produced zlib (fed ++ bytes)).length - (y ++ out).length)
    using Nat.strong_induction_on generalizing before fed out bytes dec with
  | _ k ih =>
      rcases called : d.decompress dec bytes deflateChunk flush with ⟨answer, dec'⟩
      cases answer with
      | error e =>
          refine ⟨(.error e, .running dec' (out ++ List.replicate deflateChunk 0) false),
            .of_succ fun fuel => ?_, .error fun more last whole => ?_⟩
          · rw [drive, called]
          · cases flush with
            | none =>
                rw [orderly.1 rfl] at reaches
                exact st.fails _ _ _ _ _ _ _ reaches called more whole
            | finish =>
                rw [orderly.2 rfl] at called whole
                rw [last rfl, List.append_nil, List.append_nil] at whole
                exact st.failsToFinish _ _ _ _ _ _ _ reaches called whole
      | ok answer =>
          obtain ⟨status, consumed, written⟩ := answer
          obtain ⟨fits, grown⟩ := st.writes _ _ _ _ _ _ _ _ _ _ _ reaches orderly called
          have whole : fed ++ bytes.take consumed ++ bytes.drop consumed = fed ++ bytes := by
            rw [List.append_assoc, List.take_append_drop]
          by_cases ended : status = .streamEnd
          · subst ended
            obtain ⟨complete_, all⟩ := st.ends _ _ _ _ _ _ _ _ _ _ reaches orderly called
            rw [List.append_assoc] at all
            refine ⟨leave dec' (out ++ written) true (bytes.drop consumed),
              .of_succ fun fuel => ?_, ?_⟩
            · simp only [drive, called, if_true]
            · rw [← whole]
              exact leave_done st complete_ all
          · have reaches' := reaches.call orderly called ended
            by_cases stuck : consumed = 0 ∧ written = []
            · obtain ⟨rfl, rfl⟩ := stuck
              obtain ⟨rfl, incomplete⟩ := st.waits _ _ _ _ _ _ _ _ _ reaches orderly called ended
              rw [List.take_nil, List.append_nil, List.append_nil] at reaches'
              refine ⟨(.ok out, .running dec' [] false), .of_succ fun fuel => ?_, ?_⟩
              · simp only [drive, called, if_neg ended, and_self, if_true, leave,
                  Bool.false_eq_true, false_and, if_false, List.append_nil]
              · rw [List.append_nil]
                exact .ok (.open_ reaches' incomplete)
            · have within : (y ++ out ++ written).length ≤ (produced zlib (fed ++ bytes)).length := by
                have further := st.grows zlib (fed ++ bytes.take consumed) (bytes.drop consumed)
                rw [whole] at further
                exact (grown.trans further).length_le
              have progress : 0 < consumed ∨ 0 < written.length := by
                rcases Nat.eq_zero_or_pos consumed with zero | some_
                · exact .inr (List.length_pos_of_ne_nil fun none_ => stuck ⟨zero, none_⟩)
                · exact .inl some_
              rw [List.append_assoc] at reaches' within
              have less : (bytes.drop consumed).length +
                  ((produced zlib (fed ++ bytes.take consumed ++ bytes.drop consumed)).length -
                    (y ++ (out ++ written)).length) < k := by
                rw [whole, List.length_drop]
                simp only [List.length_append] at within left ⊢
                omega
              obtain ⟨r, yields, outcome⟩ := ih _ less reaches' (orderly_drop orderly consumed) rfl
              rw [whole] at outcome
              refine ⟨r, yields.next fun fuel driven => ?_, outcome⟩
              simp only [drive, called, if_neg ended, if_neg stuck]
              exact driven

/-! ## Pushes and the end -/

theorem orderly_none (bytes : List UInt8) : Orderly .none .none bytes := ⟨id, nofun⟩

theorem pushRunning_outcome (st : Streaming d complete produced) {s y : List UInt8} {dec : σ}
    {done : Bool} (going : Going d complete produced .none zlib s y dec done)
    (bytes : List UInt8) :
    ∃ r, Yields (fun fuel => pushRunning d fuel dec [] done bytes) r ∧
      Outcome d complete produced .none zlib (s ++ bytes) y r := by
  cases going with
  | open_ reaches _ =>
      have reaches' : Reaches d zlib .none s (y ++ []) dec := by rwa [List.append_nil]
      obtain ⟨r, yields, outcome⟩ := drive_outcome st reaches' (orderly_none bytes)
      refine ⟨r, yields.map fun fuel driven => ?_, outcome⟩
      rw [pushRunning, if_neg (fun both => Bool.false_ne_true both.1)]
      exact driven
  | done whole =>
      by_cases some_ : bytes = []
      · subst some_
        refine ⟨(.ok [], .running dec [] true), .of_succ fun fuel => rfl, ?_⟩
        · rw [List.append_nil]
          exact .ok (by rw [List.append_nil]; exact .done whole)
      · refine ⟨(.error trailing, .running dec [] true), .of_forall fun fuel => ?_,
          .error fun more _ => not_complete_behind st whole some_ more⟩
        rw [pushRunning, if_pos ⟨rfl, some_⟩]

/-- The stream behind the bytes `s`, of which `y` was handed out. -/
inductive Holds (d : Decompress σ) (complete : Bool → List UInt8 → Prop)
    (produced : Bool → List UInt8 → List UInt8) :
    List UInt8 → List UInt8 → DeflateStream σ → Prop
  | sniffing {s : List UInt8} : s.length < 2 → Holds d complete produced s [] (.sniffing s)
  | running {cmf flg : UInt8} {rest y : List UInt8} {dec : σ} {done : Bool} :
      Going d complete produced .none (looksLikeZlib cmf flg) (cmf :: flg :: rest) y dec done →
      Holds d complete produced (cmf :: flg :: rest) y (.running dec [] done)

/-- The bytes are one complete stream of the format that they are read as. -/
def Whole (complete : Bool → List UInt8 → Prop) (s : List UInt8) : Prop :=
  ∃ cmf flg rest, s = cmf :: flg :: rest ∧ complete (looksLikeZlib cmf flg) s

/-- What a call comes to, of whatever state. -/
inductive Pushed (d : Decompress σ) (complete : Bool → List UInt8 → Prop)
    (produced : Bool → List UInt8 → List UInt8) (s y : List UInt8) :
    Except Text (List UInt8) × DeflateStream σ → Prop
  | ok {out : List UInt8} {stream : DeflateStream σ} :
      Holds d complete produced s (y ++ out) stream →
      Pushed d complete produced s y (.ok out, stream)
  | error {e : Text} {stream : DeflateStream σ} : (∀ more, ¬ Whole complete (s ++ more)) →
      Pushed d complete produced s y (.error e, stream)

theorem Outcome.pushed {cmf flg : UInt8} {rest y : List UInt8}
    {r : Except Text (List UInt8) × DeflateStream σ}
    (outcome : Outcome d complete produced .none (looksLikeZlib cmf flg) (cmf :: flg :: rest) y r) :
    Pushed d complete produced (cmf :: flg :: rest) y r := by
  cases outcome with
  | ok going => exact .ok (.running going)
  | error none_ =>
      refine .error fun more whole => ?_
      obtain ⟨cmf', flg', rest', same, complete_⟩ := whole
      cases same
      exact none_ more nofun complete_

theorem push_outcome (st : Streaming d complete produced) {s y : List UInt8}
    {stream : DeflateStream σ} (holds : Holds d complete produced s y stream)
    (input : List UInt8) :
    ∃ r, Yields (fun fuel => push d fuel input stream) r ∧
      Pushed d complete produced (s ++ input) y r := by
  cases holds with
  | sniffing short =>
      rcases all : s ++ input with _ | ⟨cmf, _ | ⟨flg, rest⟩⟩
      · exact ⟨_, .of_forall fun fuel => by rw [push, all], .ok (.sniffing (by decide))⟩
      · exact ⟨_, .of_forall fun fuel => by rw [push, all], .ok (.sniffing (Nat.lt_succ_self 1))⟩
      · have fresh : Reaches d (looksLikeZlib cmf flg) .none [] ([] ++ [])
            (d.new (looksLikeZlib cmf flg)) := .new
        obtain ⟨r, yields, outcome⟩ := drive_outcome st fresh (orderly_none (cmf :: flg :: rest))
        refine ⟨r, yields.map fun fuel driven => ?_, outcome.pushed⟩
        rw [push, all]
        simp only [pushRunning, Bool.false_eq_true, false_and, if_false]
        exact driven
  | running going =>
      obtain ⟨r, yields, outcome⟩ := pushRunning_outcome st going input
      exact ⟨r, yields, outcome.pushed⟩

/-- What the end of a body comes to: of the bytes `s`, `y` was handed out before. -/
inductive Verdict (complete : Bool → List UInt8 → Prop)
    (produced : Bool → List UInt8 → List UInt8) (s y : List UInt8) :
    Except Text (List UInt8) → Prop
  | ok {cmf flg : UInt8} {rest out : List UInt8} : s = cmf :: flg :: rest →
      complete (looksLikeZlib cmf flg) s → y ++ out = produced (looksLikeZlib cmf flg) s →
      Verdict complete produced s y (.ok out)
  | error {e : Text} : ¬ Whole complete s → Verdict complete produced s y (.error e)

theorem finish_outcome (st : Streaming d complete produced) {s y : List UInt8}
    {stream : DeflateStream σ} (holds : Holds d complete produced s y stream) :
    ∃ r, Yields (fun fuel => (finish d fuel stream).map Prod.fst) r ∧
      Verdict complete produced s y r := by
  cases holds with
  | sniffing short =>
      refine ⟨_, .of_forall fun fuel => rfl, .error ?_⟩
      rintro ⟨cmf, flg, rest, rfl, -⟩
      exact absurd short (by simp)
  | @running cmf flg rest y dec done going =>
      cases going with
      | open_ reaches incomplete =>
          have reaches' : Reaches d (looksLikeZlib cmf flg) .none (cmf :: flg :: rest)
              (y ++ []) dec := by
            rwa [List.append_nil]
          have orderly : Orderly .none .finish [] := ⟨nofun, fun _ => rfl⟩
          obtain ⟨r, yields, outcome⟩ := drive_outcome st reaches' orderly
          rw [List.append_nil] at outcome
          cases outcome with
          | @ok out dec' done' going' =>
              cases done' with
              | false =>
                  refine ⟨.error truncated, yields.map fun fuel driven => ?_, .error ?_⟩
                  · rw [finish, driven]
                    rfl
                  · rintro ⟨cmf', flg', rest', same, whole⟩
                    cases same
                    exact incomplete whole
              | true =>
                  refine ⟨.ok out, yields.map fun fuel driven => ?_, ?_⟩
                  · rw [finish, driven]
                    rfl
                  · generalize all : y ++ out = z at going'
                    cases going' with
                    | done whole => exact .ok rfl whole all
          | @error e stream none_ =>
              refine ⟨.error e, yields.map fun fuel driven => ?_, .error ?_⟩
              · rw [finish, driven]
                rfl
              · rintro ⟨cmf', flg', rest', same, whole⟩
                cases same
                exact none_ [] (fun _ => rfl) (by rwa [List.append_nil])
      | done whole =>
          exact ⟨.ok [], .of_succ fun fuel => rfl, .ok rfl whole (List.append_nil _)⟩

theorem run_outcome (st : Streaming d complete produced) (inputs : List (List UInt8))
    {s y : List UInt8} {stream : DeflateStream σ} (holds : Holds d complete produced s y stream) :
    ∃ r, Yields (fun fuel => run d fuel inputs stream) r ∧
      Verdict complete produced (s ++ inputs.flatten) y r := by
  induction inputs generalizing s y stream with
  | nil =>
      rw [List.flatten_nil, List.append_nil]
      exact finish_outcome st holds
  | cons input inputs ih =>
      rw [List.flatten_cons, ← List.append_assoc]
      obtain ⟨r, yields, outcome⟩ := push_outcome st holds input
      cases outcome with
      | @ok out stream' holds' =>
          obtain ⟨r', yields', verdict⟩ := ih holds'
          refine ⟨r'.map fun more => out ++ more, yields.map₂ yields' fun fuel pushed later => ?_, ?_⟩
          · rw [run, pushed]
            dsimp only
            rw [later]
            rfl
          · cases verdict with
            | ok head whole all =>
                rw [List.append_assoc] at all
                exact .ok head whole all
            | error none_ => exact .error none_
      | @error e stream' none_ =>
          refine ⟨.error e, yields.map fun fuel pushed => ?_, .error (none_ _)⟩
          rw [run, pushed]

/-! ## The verdict -/

theorem not_readAsZlib_of_padded {s : List UInt8} (padded : Padded s) : ¬ ReadAsZlib s := by
  rintro ⟨cmf, flg, rest, rfl, looks⟩
  have low : cmf &&& 0x0F = 8 := by
    unfold looksLikeZlib at looks
    simp only [decide_eq_true_eq] at looks
    exact looks.1
  -- a stored block, and the lowest of the bits up to the next byte is set
  have stored : ∀ b : BitVec 8, UInt8.ofBitVec b &&& 0x0F = 8 →
      UInt8.ofBitVec b >>> 1 &&& 3 = 0 ∧ UInt8.ofBitVec b >>> 3 ≠ 0 := by
    decide
  obtain ⟨block, bits⟩ := stored cmf.toBitVec low
  exact bits (padded cmf rfl block)

theorem decodes_iff (st : Streaming d complete produced) {s p : List UInt8} :
    Decodes complete produced s p ↔ ∃ cmf flg rest, s = cmf :: flg :: rest ∧
      complete (looksLikeZlib cmf flg) s ∧ p = produced (looksLikeZlib cmf flg) s := by
  constructor
  · rintro (⟨whole, rfl⟩ | ⟨whole, raw, rfl⟩)
    · obtain ⟨cmf, flg, rest, rfl, looks⟩ := st.header s whole
      exact ⟨cmf, flg, rest, rfl, by rwa [looks], by rw [looks]⟩
    · have two := st.two s whole
      rcases s with _ | ⟨cmf, _ | ⟨flg, rest⟩⟩
      · exact absurd two (by decide)
      · exact absurd two (Nat.lt_irrefl 1)
      · have looks : looksLikeZlib cmf flg = false :=
          Bool.eq_false_iff.mpr fun looks => raw ⟨cmf, flg, rest, rfl, looks⟩
        exact ⟨cmf, flg, rest, rfl, by rwa [looks], by rw [looks]⟩
  · rintro ⟨cmf, flg, rest, rfl, whole, rfl⟩
    cases looks : looksLikeZlib cmf flg with
    | true =>
        rw [looks] at whole
        exact .inl ⟨whole, rfl⟩
    | false =>
        rw [looks] at whole
        refine .inr ⟨whole, ?_, rfl⟩
        rintro ⟨cmf', flg', rest', same, looks'⟩
        cases same
        rw [looks] at looks'
        cases looks'

theorem settles_outcome (st : Streaming d complete produced) (inputs : List (List UInt8)) :
    ∃ r, Settles d inputs r ∧ Verdict complete produced inputs.flatten [] r := by
  have fresh : Holds d complete produced [] [] (new : DeflateStream σ) := .sniffing (by decide)
  exact run_outcome st inputs fresh

theorem settles_ok_iff (st : Streaming d complete produced) {inputs : List (List UInt8)}
    {p : List UInt8} :
    Settles d inputs (.ok p) ↔ Decodes complete produced inputs.flatten p := by
  rw [decodes_iff st]
  obtain ⟨r, settles, verdict⟩ := settles_outcome st inputs
  constructor
  · intro ok
    rw [Yields.unique settles ok] at verdict
    cases verdict with
    | ok head whole all => exact ⟨_, _, _, head, whole, all⟩
  · rintro ⟨cmf, flg, rest, head, whole, rfl⟩
    cases verdict with
    | ok head' whole' all =>
        rw [head] at head'
        cases head'
        rw [List.nil_append] at all
        rwa [← all]
    | error none_ => exact absurd ⟨cmf, flg, rest, head, whole⟩ none_

/-- There is a success just where the bytes are a complete stream, unless a complete raw stream
begins as a zlib stream does. -/
theorem succeeds_iff (st : Streaming d complete produced) {inputs : List (List UInt8)} :
    (∃ p, Settles d inputs (.ok p)) ↔ complete true inputs.flatten ∨
      complete false inputs.flatten ∧ ¬ ReadAsZlib inputs.flatten := by
  simp only [settles_ok_iff st, Decodes]
  constructor
  · rintro ⟨p, ⟨whole, -⟩ | ⟨whole, raw, -⟩⟩
    · exact .inl whole
    · exact .inr ⟨whole, raw⟩
  · rintro (whole | ⟨whole, raw⟩)
    · exact ⟨_, .inl ⟨whole, rfl⟩⟩
    · exact ⟨_, .inr ⟨whole, raw, rfl⟩⟩

/-- Every run settles, and its verdict is said by its bytes: success, with their plaintext, just
where they are one complete zlib stream, or one complete raw stream that does not begin as a zlib
stream does. A padded raw stream does not. So both formats are taken, and no raw stream is read as
zlib, but for the complete raw streams that begin so. -/
theorem one_verdict (st : Streaming d complete produced) :
    (∀ inputs inputs' : List (List UInt8), inputs.flatten = inputs'.flatten →
      ∃ r r', Settles d inputs r ∧ Settles d inputs' r' ∧ r.toOption = r'.toOption) ∧
    (∀ inputs p, Settles d inputs (.ok p) ↔ Decodes complete produced inputs.flatten p) ∧
    (∀ s, Padded s → ¬ ReadAsZlib s) ∧
    ∀ s, ((∀ inputs : List (List UInt8), inputs.flatten = s →
        ((∃ p, Settles d inputs (.ok p)) ↔ complete true s ∨ complete false s)) ∧
        (complete false s → ¬ ReadAsZlib s)) ↔
      ¬ (complete false s ∧ ReadAsZlib s) := by
  refine ⟨fun inputs inputs' same => ?_, fun inputs p => settles_ok_iff st,
    fun s padded => not_readAsZlib_of_padded padded, fun s => ?_⟩
  · obtain ⟨r, settles, -⟩ := settles_outcome st inputs
    obtain ⟨r', settles', -⟩ := settles_outcome st inputs'
    have both : ∀ p, r = .ok p ↔ r' = .ok p := by
      intro p
      constructor
      · rintro rfl
        have ok := (settles_ok_iff st).mp settles
        rw [same] at ok
        exact Yields.unique settles' ((settles_ok_iff st).mpr ok)
      · rintro rfl
        have ok := (settles_ok_iff st).mp settles'
        rw [← same] at ok
        exact Yields.unique settles ((settles_ok_iff st).mpr ok)
    refine ⟨r, r', settles, settles', ?_⟩
    cases r with
    | ok p => rw [(both p).mp rfl]
    | error e =>
        cases r' with
        | ok p => cases (both p).mpr rfl
        | error e' => rfl
  · constructor
    · rintro ⟨-, raw⟩ ⟨whole, looks⟩
      exact raw whole looks
    · intro apart
      have raw : complete false s → ¬ ReadAsZlib s := fun whole looks => apart ⟨whole, looks⟩
      refine ⟨?_, raw⟩
      rintro inputs rfl
      rw [succeeds_iff st]
      exact or_congr_right (and_iff_left_of_imp raw)

/-! ## A decompressor of two streams -/

/-- One stream of each format, with its plaintext. The raw one begins with a stored block in which
bits of the padding are set, and so with the two bytes of a zlib header. -/
def known : Bool → List UInt8 × List UInt8
  | true => ([0x78, 0x01, 0x03, 0x00, 0x00, 0x00, 0x00, 0x01], [])
  | false => ([0x78, 0x01, 0x00, 0xFE, 0xFF, 0x61, 0x03, 0x00], [0x61])

/-- It holds its format and what is still to come of the stream. -/
def knownDecompress : Decompress (Bool × List UInt8) where
  new zlib := (zlib, (known zlib).1)
  decompress dec input _ _ :=
    if dec.2 <+: input then (.ok (.streamEnd, dec.2.length, (known dec.1).2), (dec.1, []))
    else if input <+: dec.2 then
      (.ok (.ok, input.length, []), (dec.1, dec.2.drop input.length))
    else (.error "corrupt deflate stream".toList, dec)

def knownComplete (zlib : Bool) (s : List UInt8) : Prop := s = (known zlib).1

def knownProduced (zlib : Bool) (s : List UInt8) : List UInt8 :=
  if (known zlib).1 <+: s then (known zlib).2 else []

/-- The three answers of a call. -/
theorem known_called {dec dec' : Bool × List UInt8} {input : List UInt8} {flush : FlushDecompress}
    {answer : Except Text (Status × Nat × List UInt8)}
    (called : knownDecompress.decompress dec input deflateChunk flush = (answer, dec')) :
    (∃ rest, input = dec.2 ++ rest ∧
        answer = .ok (.streamEnd, dec.2.length, (known dec.1).2) ∧ dec' = (dec.1, [])) ∨
      (∃ rest, rest ≠ [] ∧ dec.2 = input ++ rest ∧ answer = .ok (.ok, input.length, []) ∧
        dec' = (dec.1, rest)) ∨
      ¬ dec.2 <+: input ∧ ¬ input <+: dec.2 ∧ ∃ e, answer = .error e := by
  have called : (if dec.2 <+: input then
      (.ok (.streamEnd, dec.2.length, (known dec.1).2), (dec.1, []))
    else if input <+: dec.2 then
      (.ok (.ok, input.length, []), (dec.1, dec.2.drop input.length))
    else (.error "corrupt deflate stream".toList, dec)) = (answer, dec') := called
  split_ifs at called with whole part
  · cases called
    obtain ⟨rest, rfl⟩ := whole
    exact .inl ⟨rest, rfl, rfl, rfl⟩
  · cases called
    obtain ⟨rest, same⟩ := part
    refine .inr (.inl ⟨rest, fun none_ => whole ?_, same.symm, rfl, ?_⟩)
    · rw [none_, List.append_nil] at same
      rw [same]
    · rw [← same, List.drop_left]
  · cases called
    exact .inr (.inr ⟨whole, part, _, rfl⟩)

theorem known_reaches {zlib : Bool} {fed out : List UInt8} {dec : Bool × List UInt8}
    {flush : FlushDecompress} (reaches : Reaches knownDecompress zlib flush fed out dec) :
    dec.1 = zlib ∧ fed ++ dec.2 = (known zlib).1 ∧ dec.2 ≠ [] ∧ out = [] := by
  induction reaches with
  | new => cases zlib <;> exact ⟨rfl, rfl, List.cons_ne_nil _ _, rfl⟩
  | call _ _ called running ih =>
      obtain ⟨format, split, -, rfl⟩ := ih
      rcases known_called called with ⟨rest, -, answer, -⟩ | ⟨rest, some_, same, answer, rfl⟩ |
        ⟨-, -, e, answer⟩
      · cases answer
        exact absurd rfl running
      · cases answer
        refine ⟨format, ?_, some_, rfl⟩
        rw [List.take_length, List.append_assoc, ← same]
        exact split
      · cases answer

theorem known_streaming : Streaming knownDecompress knownComplete knownProduced where
  header := by
    rintro s rfl
    exact ⟨_, _, _, rfl, by decide⟩
  two := by
    rintro s rfl
    decide
  selfEnding := by
    intro zlib s more whole longer
    unfold knownComplete at whole longer
    rw [← whole] at longer
    exact List.append_right_eq_self.mp longer
  grows := by
    intro zlib s more
    unfold knownProduced
    split_ifs with here there there
    · exact List.prefix_rfl
    · exact absurd (here.trans (List.prefix_append s more)) there
    · exact List.nil_prefix
    · exact List.prefix_rfl
  writes := by
    intro zlib before fed out dec input flush status consumed written dec' reaches _ called
    obtain ⟨rfl, split, -, rfl⟩ := known_reaches reaches
    rcases known_called called with ⟨rest, rfl, answer, -⟩ | ⟨rest, -, same, answer, -⟩ |
      ⟨-, -, e, answer⟩
    · cases answer
      refine ⟨by simp, ?_⟩
      rw [List.take_left, split, knownProduced, if_pos List.prefix_rfl, List.nil_append]
    · cases answer
      exact ⟨Nat.le_refl _, List.nil_prefix⟩
    · cases answer
  ends := by
    intro zlib before fed out dec input flush consumed written dec' reaches _ called
    obtain ⟨rfl, split, -, rfl⟩ := known_reaches reaches
    rcases known_called called with ⟨rest, rfl, answer, -⟩ | ⟨rest, -, same, answer, -⟩ |
      ⟨-, -, e, answer⟩
    · cases answer
      rw [List.take_left, split, knownProduced, if_pos List.prefix_rfl]
      exact ⟨rfl, rfl⟩
    · cases answer
    · cases answer
  waits := by
    intro zlib before fed out dec input flush status dec' reaches _ called running
    obtain ⟨rfl, split, more, rfl⟩ := known_reaches reaches
    rcases known_called called with ⟨rest, rfl, answer, -⟩ | ⟨rest, -, same, answer, -⟩ |
      ⟨-, -, e, answer⟩
    · simp only [Except.ok.injEq, Prod.mk.injEq] at answer
      exact absurd answer.1 running
    · simp only [Except.ok.injEq, Prod.mk.injEq] at answer
      have none_ : input.length = 0 := answer.2.1.symm
      refine ⟨List.length_eq_zero_iff.mp none_, fun whole => more ?_⟩
      unfold knownComplete at whole
      rw [← split] at whole
      exact List.append_right_eq_self.mp whole.symm
    · cases answer
  fails := by
    intro zlib fed out dec input e dec' reaches called more whole
    obtain ⟨rfl, split, -, rfl⟩ := known_reaches reaches
    unfold knownComplete at whole
    rw [← split, List.append_assoc, List.append_cancel_left_eq] at whole
    rcases known_called called with ⟨rest, -, answer, -⟩ | ⟨rest, -, -, answer, -⟩ |
      ⟨-, notPart, -⟩
    · cases answer
    · cases answer
    · exact notPart ⟨more, whole⟩
  failsToFinish := by
    intro zlib before fed out dec e dec' reaches called
    rcases known_called called with ⟨rest, -, answer, -⟩ | ⟨rest, -, -, answer, -⟩ |
      ⟨-, notPart, -⟩
    · cases answer
    · cases answer
    · exact absurd List.nil_prefix notPart

/-- The wrapped stream in four pushes, one of them empty. -/
theorem one_verdict_known :
    Settles knownDecompress [[0x78], [], [0x01, 0x03, 0x00], [0x00, 0x00, 0x00, 0x01]] (.ok []) := by
  have plain : [] = knownProduced true [0x78, 0x01, 0x03, 0x00, 0x00, 0x00, 0x00, 0x01] := by
    decide
  exact ((one_verdict known_streaming).2.1 _ _).mpr (.inl ⟨rfl, plain⟩)

/-- A complete raw stream is refused where it begins as a zlib stream does. -/
theorem raw_stream_is_refused :
    ¬ ∀ (d : Decompress (Bool × List UInt8)) (complete : Bool → List UInt8 → Prop)
      (produced : Bool → List UInt8 → List UInt8), Streaming d complete produced →
      ∀ inputs, (∃ p, Settles d inputs (.ok p)) ↔
        complete true inputs.flatten ∨ complete false inputs.flatten := by
  intro accepted
  obtain ⟨p, settles⟩ := (accepted _ _ _ known_streaming [(known false).1]).mpr (.inr rfl)
  have fails : Settles knownDecompress [(known false).1]
      (.error "corrupt deflate stream".toList) := by
    refine ⟨1, fun fuel enough => ?_⟩
    obtain ⟨fuel, rfl⟩ := Nat.exists_eq_add_of_le' enough
    rfl
  cases Yields.unique settles fails

end HClient.Body.DeflateStream
