import HClient.Core.Bytes
import HClient.Lines.Stream

/-!
# The limit on a line

A line is measured only while it waits for its end between two chunks, and with it the feed
that a return before it was followed by. So lines near the limit may pass or fail with the
cuts, and all other streams are read alike however they are cut.
-/
namespace HClient.Lines

open Sse

/-! ## What lines come to count -/

/-- A feed comes right behind a return only; `may` says that one may come first. -/
def Paired : Bool → List Token → Prop
  | _, [] => True
  | may, .feed :: tokens => may = true ∧ Paired false tokens
  | _, .line _ :: tokens => Paired true tokens

/-- What each line counts at most between chunks, its own bytes and the feed before it, and
whether a feed is the last there is. -/
def weigh : Bool → List Token → List Nat × Bool
  | fed, [] => ([], fed)
  | _, .feed :: tokens => weigh true tokens
  | fed, .line content :: tokens => prepend [content.length + fed.toNat] (weigh false tokens)

theorem weigh_append (fed : Bool) (tokens more : List Token) :
    weigh fed (tokens ++ more) = prepend (weigh fed tokens).1 (weigh (weigh fed tokens).2 more) := by
  induction tokens generalizing fed with
  | nil => rfl
  | cons token tokens ih =>
      cases token with
      | feed => exact ih true
      | line content =>
          rw [List.cons_append, weigh, weigh, ih, prepend_prepend]
          rfl

theorem Paired.may {tokens : List Token} {may : Bool} (paired : Paired may tokens) :
    Paired true tokens := by
  cases tokens with
  | nil => trivial
  | cons token tokens =>
      cases token with
      | feed => exact ⟨rfl, paired.2⟩
      | line content => exact paired

/-- The lines among tokens. -/
def linesOf (tokens : List Token) : List Bytes := tokens.filterMap LineToken.line?

theorem linesOf_append (tokens more : List Token) :
    linesOf (tokens ++ more) = linesOf tokens ++ linesOf more := List.filterMap_append

theorem head_ne_feed {tokens : List Token} (other : ∀ rest, tokens = .feed :: rest → False) :
    tokens.head? ≠ some .feed := by
  intro feed
  cases tokens with
  | nil => cases feed
  | cons token tokens =>
      cases feed
      exact other tokens rfl

theorem entries_lines (carried : Nat) (tokens : List Token) :
    (entries carried tokens).1.map Prod.fst = linesOf tokens := by
  induction carried, tokens using entries.induct with
  | case1 carried => rfl
  | case2 carried tokens ih => exact ih
  | case3 carried content tokens ih =>
      rw [entries, prepend_fst, List.map_append, ih]
      rfl
  | case4 carried content tokens other ih =>
      rw [entries_line (head_ne_feed other), prepend_fst, List.map_append, ih]
      rfl

theorem le_weigh {fed : Bool} {tokens : List Token} {line : Bytes} (mem : line ∈ linesOf tokens) :
    ∃ n ∈ (weigh fed tokens).1, line.length ≤ n := by
  induction tokens generalizing fed with
  | nil => cases mem
  | cons token tokens ih =>
      cases token with
      | feed => exact ih mem
      | line content =>
          rcases List.mem_cons.mp mem with rfl | later
          · exact ⟨_, List.mem_cons_self, Nat.le_add_right _ _⟩
          · have behind : ∃ n ∈ (weigh false tokens).1, line.length ≤ n := ih later
            obtain ⟨n, mem, le⟩ := behind
            exact ⟨n, List.mem_cons_of_mem _ mem, le⟩

theorem weigh_eq_nil {fed : Bool} {tokens : List Token} :
    (weigh fed tokens).1 = [] ↔ linesOf tokens = [] := by
  induction tokens generalizing fed with
  | nil => exact ⟨fun _ => rfl, fun _ => rfl⟩
  | cons token tokens ih =>
      cases token with
      | feed => exact ih
      | line content => exact ⟨nofun, nofun⟩

/-- What is carried behind tokens is at most the feed that is their last. -/
theorem entries_carried {may fed : Bool} {carried : Nat} {tokens : List Token}
    (paired : Paired may tokens) (fresh : may = true → fed = false) (few : carried ≤ fed.toNat) :
    (entries carried tokens).2 ≤ (weigh fed tokens).2.toNat := by
  induction carried, tokens using entries.induct generalizing may fed with
  | case1 carried => exact few
  | case2 carried tokens ih =>
      obtain ⟨rfl, rest⟩ := paired
      rw [fresh rfl] at few
      exact ih rest nofun (Nat.succ_le_succ few)
  | case3 carried content tokens ih =>
      exact ih paired.2 (fun impossible => absurd impossible Bool.false_ne_true) (Nat.zero_le _)
  | case4 carried content tokens other ih =>
      rw [entries_line (head_ne_feed other)]
      exact ih paired (fun _ => rfl) le_rfl

/-! ## What a scan hands out -/

theorem scan_cons (s : Scan) (b : UInt8) (bytes : Bytes) :
    scan s (b :: bytes) = prepend (scan s [b]).1 (scan (scan s [b]).2 bytes) :=
  scan_append s [b] bytes

/-- The three things one byte can do to a scan. -/
theorem scan_byte (s : Scan) (b : UInt8) :
    (s = .returned ∧ scan s [b] = ([.feed], .inside [])) ∨
      (∃ s', scan s [b] = ([.line s.content], s')) ∨
        scan s [b] = ([], .inside (s.content ++ [b])) := by
  have ends (content : Bytes) : (∃ s', LineScan.endOrExtend cr lf content b = ([.line content], s')) ∨
      LineScan.endOrExtend cr lf content b = ([], .inside (content ++ [b])) := by
    unfold LineScan.endOrExtend
    split
    · exact .inl ⟨_, rfl⟩
    split
    · exact .inl ⟨_, rfl⟩
    · exact .inr rfl
  have one : scan s [b] = LineScan.step cr lf s b := by
    rw [scan, LineScan.run, LineScan.run, prepend, List.append_nil]
  rw [one]
  cases s with
  | inside content => exact .inr (ends content)
  | returned =>
      by_cases feed : b = lf
      · exact .inl ⟨rfl, if_pos feed⟩
      · have other : LineScan.step cr lf .returned b = LineScan.endOrExtend cr lf [] b :=
          if_neg feed
        rw [other]
        exact .inr (ends [])

theorem scan_paired (s : Scan) (bytes : Bytes) :
    Paired (decide (s = .returned)) (scan s bytes).1 := by
  induction bytes generalizing s with
  | nil => trivial
  | cons b bytes ih =>
      rw [scan_cons]
      rcases scan_byte s b with ⟨rfl, same⟩ | ⟨s', same⟩ | same
      · rw [same]
        exact ⟨rfl, ih (.inside [])⟩
      · rw [same]
        exact (ih s').may
      · rw [same]
        have rest := ih (.inside (s.content ++ [b]))
        cases s with
        | inside content => exact rest
        | returned => exact rest.may

/-- Right behind a return no feed has come. -/
def Unfed (s : Scan) (fed : Bool) : Prop := s = .returned → fed = false

theorem scan_unfed {s : Scan} {fed : Bool} (unfed : Unfed s fed) (bytes : Bytes) :
    Unfed (scan s bytes).2 (weigh fed (scan s bytes).1).2 := by
  induction bytes generalizing s fed with
  | nil => exact unfed
  | cons b bytes ih =>
      rw [scan_cons, prepend_snd, prepend_fst, weigh_append, prepend_snd]
      apply ih
      rcases scan_byte s b with ⟨rfl, same⟩ | ⟨s', same⟩ | same
      · rw [same]
        exact nofun
      · rw [same]
        exact fun _ => rfl
      · rw [same]
        exact nofun

/-- A line counts at least what of it has come, with the feed before it. -/
theorem scan_first {s : Scan} {fed : Bool} (unfed : Unfed s fed) {bytes : Bytes} {n : Nat}
    {ns : List Nat} (first : (weigh fed (scan s bytes).1).1 = n :: ns) :
    s.content.length + fed.toNat ≤ n := by
  induction bytes generalizing s with
  | nil => cases first
  | cons b bytes ih =>
      rw [scan_cons] at first
      rcases scan_byte s b with ⟨rfl, same⟩ | ⟨s', same⟩ | same
      · rw [unfed rfl]
        exact Nat.zero_le n
      · rw [same] at first
        cases first
        exact le_rfl
      · rw [same] at first
        have longer := ih (s := .inside (s.content ++ [b])) nofun first
        rw [LineScan.content, List.length_append] at longer
        omega

/-- Without another line, what has come of one grows. -/
theorem scan_grows {content bytes : Bytes} (none : linesOf (scan (.inside content) bytes).1 = []) :
    (scan (.inside content) bytes).1 = [] ∧
      (scan (.inside content) bytes).2 = .inside (content ++ bytes) := by
  induction bytes generalizing content with
  | nil => exact ⟨rfl, by rw [List.append_nil]; rfl⟩
  | cons b bytes ih =>
      rw [scan_cons] at none ⊢
      rcases scan_byte (.inside content) b with ⟨impossible, -⟩ | ⟨s', same⟩ | same
      · cases impossible
      · rw [same] at none
        cases none
      · rw [same] at none ⊢
        obtain ⟨tokens, grown⟩ := ih none
        refine ⟨tokens, grown.trans ?_⟩
        rw [List.append_assoc]
        rfl

/-! ## Between two chunks -/

/-- What has come of the line that has not ended. -/
def restOf (stream : Bytes) : Bytes := (scanned stream).2.content

/-- The last that has come is the feed behind a return, or the line after it. -/
def fedOf (stream : Bytes) : Bool := (weigh false (scanned stream).1).2

/-- No line can go over the limit in one cut and not in another: it stays within it with the
feed before it, or it is the last one, which never ends, and is too long by itself. -/
structure Even (limit : Nat) (stream : Bytes) : Prop where
  lines : ∀ n ∈ (weigh false (scanned stream).1).1, n ≤ limit
  rest : (restOf stream).length + (fedOf stream).toNat ≤ limit ∨ limit < (restOf stream).length

instance (limit : Nat) (stream : Bytes) : Decidable (Even limit stream) :=
  decidable_of_iff
    ((∀ n ∈ (weigh false (scanned stream).1).1, n ≤ limit) ∧
      ((restOf stream).length + (fedOf stream).toNat ≤ limit ∨ limit < (restOf stream).length))
    ⟨fun h => ⟨h.1, h.2⟩, fun even => ⟨even.lines, even.rest⟩⟩

theorem scanned_paired (stream : Bytes) : Paired false (scanned stream).1 :=
  scan_paired (.inside []) (unmarked stream)

theorem scanned_unfed (stream : Bytes) : Unfed (scanned stream).2 (fedOf stream) :=
  scan_unfed (s := .inside []) nofun (unmarked stream)

theorem Paired.behind {may fed : Bool} {tokens more : List Token} (fresh : may = true → fed = false)
    (paired : Paired may (tokens ++ more)) :
    ∃ may', Paired may' more ∧ (may' = true → (weigh fed tokens).2 = false) := by
  induction tokens generalizing may fed with
  | nil => exact ⟨may, paired, fresh⟩
  | cons token tokens ih =>
      cases token with
      | feed => exact ih (fun impossible => absurd impossible Bool.false_ne_true) paired.2
      | line content => exact ih (fun _ => rfl) paired

theorem fedOf_extends {stream more : Bytes} {fresh : List Token}
    (grown : (scanned (stream ++ more)).1 = (scanned stream).1 ++ fresh) :
    fedOf (stream ++ more) = (weigh (fedOf stream) fresh).2 := by
  rw [fedOf, grown, weigh_append]
  rfl

/-- A chunk more: its lines come out, and at most the feed behind the last of them is carried. -/
theorem push_chunk {s : LineSplitter} {stream : Bytes} (reads : s.Reads stream)
    (few : s.carriedTerminator ≤ (fedOf stream).toNat) (chunk : Bytes) :
    ∃ fresh, (scanned (stream ++ chunk)).1 = (scanned stream).1 ++ fresh ∧
      (s.push chunk).drain.1.map Prod.fst = linesOf fresh ∧
      (s.push chunk).drain.2.Reads (stream ++ chunk) ∧
      (s.push chunk).drain.2.carriedTerminator ≤ (fedOf (stream ++ chunk)).toNat := by
  obtain ⟨fresh, whole, lines, carried, after⟩ := LineSplitter.push_reads reads chunk
  have pairs := scanned_paired (stream ++ chunk)
  rw [whole] at pairs
  obtain ⟨may, paired, unfed⟩ : ∃ may, Paired may fresh ∧ (may = true → fedOf stream = false) :=
    pairs.behind fun impossible => absurd impossible Bool.false_ne_true
  refine ⟨fresh, whole, ?_, after, ?_⟩
  · rw [lines, entries_lines]
  · rw [carried, fedOf_extends whole]
    exact entries_carried paired unfed few

/-! ## Streams that are read alike -/

section
variable {E : Type}

/-- The bytes of a body up to its end, and the error it ends with, if it does. -/
def contents : List (Except E BodyFrame) → Bytes × Option E
  | [] => ([], none)
  | .error e :: _ => ([], some e)
  | .ok .trailers :: rest => contents rest
  | .ok (.data chunk) :: rest => prepend chunk (contents rest)

/-- An answer without the length a line was refused at. -/
def shown : Line E → Except (Option E) Bytes
  | .ok line => .ok line
  | .error (.lineTooLong _ _) => .error none
  | .error (.body e) => .error (some e)

/-- The line a stream ends with and does not end. -/
def restLine (stream : Bytes) : List Bytes := if restOf stream = [] then [] else [restOf stream]

/-- What is behind the lines of a stream that is read to its end. -/
def lastOf (stream : Bytes) : Option E → List (Except (Option E) Bytes)
  | some e => [.error (some e)]
  | none => (restLine stream).map .ok

/-- What is behind the lines of an even stream. -/
def endOf (limit : Nat) (stream : Bytes) (ended : Option E) : List (Except (Option E) Bytes) :=
  if limit < (restOf stream).length then [.error none] else lastOf stream ended

theorem tailOf_reads {s : LineSplitter} {stream : Bytes} (reads : s.Reads stream) :
    (tailOf s : List (Line E)) = (restLine stream).map .ok := by
  rw [tailOf, LineSplitter.takeUnterminated_reads reads, restLine, restOf]
  split <;> rfl

/-- Where an even stream goes over the limit, it is in its last line, which is too long. -/
theorem even_stuck {limit : Nat} (mark_fits : 3 ≤ limit) {stream more : Bytes}
    (even : Even limit (stream ++ more)) {fresh : List Token}
    (whole : (scanned (stream ++ more)).1 = (scanned stream).1 ++ fresh)
    (long : limit < (restOf stream).length + (fedOf stream).toNat) :
    linesOf fresh = [] ∧ limit < (restOf (stream ++ more)).length := by
  have decided : ¬ Undecided stream := by
    intro waits
    have short := waits.1
    rw [restOf, fedOf, scanned_undecided waits] at long
    change limit < stream.length + 0 at long
    omega
  have appended := scanned_append decided more
  have scanned_fresh : (scan (scanned stream).2 more).1 = fresh := by
    rw [appended, prepend_fst] at whole
    exact List.append_cancel_left whole
  have none : linesOf fresh = [] := by
    by_contra some
    obtain ⟨n, ns, first⟩ := List.exists_cons_of_ne_nil (mt weigh_eq_nil.mp some)
    have counts := scan_first (scanned_unfed stream) (scanned_fresh ▸ first)
    have within := even.lines n (by
      rw [whole, weigh_append, prepend_fst]
      exact List.mem_append_right _ (first ▸ List.mem_cons_self))
    exact absurd long (Nat.not_lt.mpr (counts.trans within))
  refine ⟨none, ?_⟩
  cases state : (scanned stream).2 with
  | returned =>
      rw [restOf, scanned_unfed stream state, state] at long
      exact absurd long (Nat.not_lt_zero _)
  | inside content =>
      rw [state] at scanned_fresh appended
      obtain ⟨quiet, grown⟩ := scan_grows (scanned_fresh ▸ none)
      have rest : restOf (stream ++ more) = content ++ more := by
        rw [restOf, appended, prepend_snd, grown]
        rfl
      have fed : fedOf (stream ++ more) = fedOf stream := by
        rw [fedOf_extends whole, ← scanned_fresh, quiet]
        rfl
      have longer : (restOf stream).length ≤ (restOf (stream ++ more)).length := by
        rw [rest, restOf, state, List.length_append]
        exact Nat.le_add_right _ _
      rcases even.rest with within | beyond
      · rw [fed] at within
        omega
      · exact beyond

theorem contents_data (chunk : Bytes) (rest : List (Except E BodyFrame)) (stream : Bytes) :
    stream ++ (contents (.ok (.data chunk) :: rest)).1 = stream ++ chunk ++ (contents rest).1 :=
  (List.append_assoc _ _ _).symm

/-- One chunk of a body: its lines are handed over, and what is left is checked. -/
theorem readLines_chunk (limit : Nat) {s : LineSplitter} {stream : Bytes} (reads : s.Reads stream)
    (few : s.carriedTerminator ≤ (fedOf stream).toNat) (chunk : Bytes)
    (rest : List (Except E BodyFrame)) {fresh : List Token}
    (whole : (scanned (stream ++ chunk ++ (contents rest).1)).1 = (scanned stream).1 ++ fresh) :
    ∃ new later s', s' = (s.push chunk).drain.2 ∧ fresh = new ++ later ∧
      (scanned (stream ++ chunk)).1 = (scanned stream).1 ++ new ∧
      (scanned (stream ++ chunk ++ (contents rest).1)).1 = (scanned (stream ++ chunk)).1 ++ later ∧
      s'.Reads (stream ++ chunk) ∧ s'.carriedTerminator ≤ (fedOf (stream ++ chunk)).toNat ∧
      readLines limit s (.ok (.data chunk) :: rest) = (linesOf new).map .ok ++
        if s'.bufferedLen > limit then [.error (.lineTooLong limit s'.bufferedLen)]
        else readLines limit s' rest := by
  obtain ⟨new, grown, lines, after, carried⟩ := push_chunk reads few chunk
  obtain ⟨later, same⟩ := scanned_extends (stream ++ chunk) (contents rest).1
  refine ⟨new, later, _, rfl, ?_, grown, same, after, carried, ?_⟩
  · rw [whole, grown, List.append_assoc] at same
    exact List.append_cancel_left same
  · rw [readLines, ← lines, List.map_map]
    rfl

/-- An even stream is read the same way however it is cut. -/
theorem readLines_of_even {limit : Nat} (mark_fits : 3 ≤ limit)
    (frames : List (Except E BodyFrame)) {s : LineSplitter} {stream : Bytes}
    (even : Even limit (stream ++ (contents frames).1)) (reads : s.Reads stream)
    (few : s.carriedTerminator ≤ (fedOf stream).toNat) (within : s.bufferedLen ≤ limit)
    {fresh : List Token}
    (whole : (scanned (stream ++ (contents frames).1)).1 = (scanned stream).1 ++ fresh) :
    (readLines limit s frames).map shown =
      (linesOf fresh).map .ok ++
        endOf limit (stream ++ (contents frames).1) (contents frames).2 := by
  induction frames generalizing s stream fresh with
  | nil =>
      have same : stream ++ (contents (E := E) []).1 = stream := List.append_nil stream
      rw [same] at even whole ⊢
      have none : fresh = [] := List.append_right_eq_self.mp whole.symm
      rw [none]
      rw [LineSplitter.bufferedLen_reads reads] at within
      have fits : ¬ limit < (restOf stream).length := by
        rw [restOf]
        omega
      rw [readLines, tailOf_reads reads, List.map_map, endOf, if_neg fits]
      rfl
  | cons frame rest ih =>
      match frame with
      | .ok .trailers => exact ih even reads few within whole
      | .error e =>
          have same : stream ++ (contents (.error e :: rest)).1 = stream := List.append_nil stream
          rw [same] at even whole ⊢
          have none : fresh = [] := List.append_right_eq_self.mp whole.symm
          rw [none]
          rw [LineSplitter.bufferedLen_reads reads] at within
          have fits : ¬ limit < (restOf stream).length := by
            rw [restOf]
            omega
          rw [endOf, if_neg fits]
          rfl
      | .ok (.data chunk) =>
          rw [contents_data] at even whole ⊢
          obtain ⟨new, later, s', -, parts, -, same, after, carried, read⟩ :=
            readLines_chunk limit reads few chunk rest whole
          rw [read, parts, List.map_append, List.map_map, linesOf_append, List.map_append,
            List.append_assoc]
          congr 1
          by_cases long : s'.bufferedLen > limit
          · rw [if_pos long]
            rw [LineSplitter.bufferedLen_reads after] at long
            obtain ⟨none, beyond⟩ := even_stuck mark_fits even same (by
              rw [restOf]
              omega)
            rw [none, endOf, if_pos beyond]
            rfl
          · rw [if_neg long]
            exact ih even after carried (Nat.not_lt.mp long) same

/-! ## What is handed over -/

/-- The lines among answers. -/
def handed (out : List (Line E)) : List Bytes := out.filterMap Except.toOption

theorem handed_append (out more : List (Line E)) :
    handed (out ++ more) = handed out ++ handed more := List.filterMap_append

@[simp] theorem handed_ok (lines : List Bytes) : handed (lines.map .ok : List (Line E)) = lines := by
  induction lines with
  | nil => rfl
  | cons line lines ih => exact congrArg (line :: ·) ih

theorem error_notMem_ok (e : LineError E) (lines : List Bytes) :
    (.error e : Line E) ∉ lines.map .ok := by
  intro mem
  obtain ⟨line, -, impossible⟩ := List.mem_map.mp mem
  cases impossible

theorem error_behind (e : LineError E) (lines : List Bytes) (out : List (Line E)) :
    .error e ∈ lines.map .ok ++ out ↔ .error e ∈ out := by
  rw [List.mem_append, or_iff_right (error_notMem_ok e lines)]

theorem handed_of_shown {out out' : List (Line E)} (same : out.map shown = out'.map shown) :
    handed out = handed out' := by
  have seen (out : List (Line E)) : handed out = (out.map shown).filterMap Except.toOption := by
    rw [List.filterMap_map]
    apply List.filterMap_congr
    intro a _
    match a with
    | .ok line => rfl
    | .error (.lineTooLong _ _) => rfl
    | .error (.body _) => rfl
  rw [seen, seen, same]

theorem mem_shown {out : List (Line E)} :
    .error none ∈ out.map shown ↔ ∃ limit seen, .error (.lineTooLong limit seen) ∈ out := by
  rw [List.mem_map]
  constructor
  · rintro ⟨a, mem, same⟩
    match a with
    | .ok line => cases same
    | .error (.lineTooLong limit seen) => exact ⟨limit, seen, mem⟩
    | .error (.body e) => cases same
  · rintro ⟨limit, seen, mem⟩
    exact ⟨_, mem, rfl⟩

/-- A run hands over the lines of the stream, and what is behind them exactly if it comes to a
clean end of the body. -/
structure EndsRight (stream : Bytes) (ended : Option E) (out : List (Line E)) : Prop where
  clean : (∀ e, .error e ∉ out) →
    ended = none ∧ handed out = linesOf (scanned stream).1 ++ restLine stream
  broken : (∃ e, .error e ∈ out) → handed out <+: linesOf (scanned stream).1

theorem readLines_ends (limit : Nat) (frames : List (Except E BodyFrame)) {s : LineSplitter}
    {stream : Bytes} (reads : s.Reads stream) (few : s.carriedTerminator ≤ (fedOf stream).toNat)
    {fresh : List Token}
    (whole : (scanned (stream ++ (contents frames).1)).1 = (scanned stream).1 ++ fresh) :
    ((∀ e, .error e ∉ readLines limit s frames) → (contents frames).2 = none ∧
        handed (readLines limit s frames) =
          linesOf fresh ++ restLine (stream ++ (contents frames).1)) ∧
      ((∃ e, .error e ∈ readLines limit s frames) →
        handed (readLines limit s frames) <+: linesOf fresh) := by
  induction frames generalizing s stream fresh with
  | nil =>
      have same : stream ++ (contents (E := E) []).1 = stream := List.append_nil stream
      rw [same] at whole ⊢
      have none : fresh = [] := List.append_right_eq_self.mp whole.symm
      rw [none, readLines, tailOf_reads reads]
      refine ⟨fun _ => ⟨rfl, handed_ok _⟩, ?_⟩
      rintro ⟨e, mem⟩
      exact absurd mem (error_notMem_ok e _)
  | cons frame rest ih =>
      match frame with
      | .ok .trailers => exact ih reads few whole
      | .error e =>
          refine ⟨fun clean => absurd List.mem_cons_self (clean (.body e)), fun _ => ?_⟩
          exact List.nil_prefix
      | .ok (.data chunk) =>
          rw [contents_data] at whole ⊢
          obtain ⟨new, later, s', -, parts, -, same, after, carried, read⟩ :=
            readLines_chunk limit reads few chunk rest whole
          rw [read, parts, linesOf_append, handed_append, handed_ok]
          simp only [error_behind]
          by_cases long : s'.bufferedLen > limit
          · rw [if_pos long]
            refine ⟨fun clean => absurd List.mem_cons_self (clean _), fun _ => ?_⟩
            exact List.prefix_append_right_inj _ |>.mpr List.nil_prefix
          · rw [if_neg long]
            obtain ⟨clean, broken⟩ := ih after carried same
            constructor
            · intro none
              obtain ⟨ended, lines⟩ := clean none
              exact ⟨ended, by rw [lines]; exact (List.append_assoc _ _ _).symm⟩
            · intro some
              exact List.prefix_append_right_inj _ |>.mpr (broken some)

/-! ## One chunk, and one byte at a time -/

/-- What a body of data frames ends with. -/
def lastFrames : Option E → List (Except E BodyFrame)
  | none => []
  | some e => [.error e]

def bytewise (bytes : Bytes) (ended : Option E) : List (Except E BodyFrame) :=
  bytes.map (fun b => .ok (.data [b])) ++ lastFrames ended

theorem contents_last (ended : Option E) : contents (lastFrames ended) = ([], ended) := by
  cases ended <;> rfl

theorem contents_bytewise (bytes : Bytes) (ended : Option E) :
    contents (bytewise bytes ended) = (bytes, ended) := by
  induction bytes with
  | nil => exact contents_last ended
  | cons b bytes ih => exact congrArg (prepend [b]) ih

theorem scanned_snoc (stream : Bytes) (b : UInt8) : (scanned (stream ++ [b])).1 =
    (scanned stream).1 ++ (scan (scanned stream).2 [b]).1 := by
  by_cases waits : Undecided stream
  · rw [scanned_undecided waits, List.nil_append]
    by_cases marked : bom <+: stream ++ [b]
    · -- the byte is the mark's last, and ends no line
      have whole : bom = stream ++ [b] := by
        apply marked.eq_of_length
        have le := marked.length_le
        have short := waits.1
        rw [List.length_append] at le ⊢
        change 3 ≤ stream.length + 1 at le
        change 3 = stream.length + 1
        omega
      have plain : Plain [b] := fun c mem =>
        plain_bom c (whole ▸ List.mem_append_right _ mem)
      rw [scan_plain plain, scanned, ← whole]
      rfl
    · rw [scanned, unmarked_of_plain marked, scan_append,
        scan_plain fun c mem => plain_bom c (waits.2.subset mem)]
      rfl
  · rw [scanned_append waits]
    rfl

/-- One byte more: nothing is carried but the feed that came last, and the line it ends was
counted in full before it. -/
theorem push_byte {s : LineSplitter} {stream : Bytes} (reads : s.Reads stream)
    (counted : s.carriedTerminator = (fedOf stream).toNat) (b : UInt8) :
    (s.push [b]).drain.2.carriedTerminator = (fedOf (stream ++ [b])).toNat ∧
      ∀ n ∈ (weigh (fedOf stream) (scan (scanned stream).2 [b]).1).1, n = s.bufferedLen := by
  obtain ⟨fresh, whole, -, carried, -⟩ := LineSplitter.push_reads reads [b]
  have same : fresh = (scan (scanned stream).2 [b]).1 :=
    List.append_cancel_left (whole.symm.trans (scanned_snoc stream b))
  rw [carried, fedOf_extends whole, same, LineSplitter.bufferedLen_reads reads, counted]
  rcases scan_byte (scanned stream).2 b with ⟨state, one⟩ | ⟨s', one⟩ | one
  · rw [one, scanned_unfed stream state]
    exact ⟨rfl, nofun⟩
  · rw [one]
    refine ⟨rfl, fun n mem => ?_⟩
    exact List.mem_singleton.mp mem
  · rw [one]
    exact ⟨rfl, nofun⟩

/-- Read byte by byte, a stream whose lines all come out has no line over the limit, and if
nothing is refused, nothing behind them is over it either. -/
theorem even_of_bytewise {limit : Nat} (bytes : Bytes) (ended : Option E) {s : LineSplitter}
    {stream : Bytes} (reads : s.Reads stream)
    (counted : s.carriedTerminator = (fedOf stream).toNat) (within : s.bufferedLen ≤ limit)
    {fresh : List Token} (whole : (scanned (stream ++ bytes)).1 = (scanned stream).1 ++ fresh) :
    ((linesOf fresh).length ≤ (handed (readLines limit s (bytewise bytes ended))).length →
        ∀ n ∈ (weigh (fedOf stream) fresh).1, n ≤ limit) ∧
      ((∀ m n, .error (.lineTooLong m n) ∉ readLines limit s (bytewise bytes ended)) →
        (restOf (stream ++ bytes)).length + (fedOf (stream ++ bytes)).toNat ≤ limit) := by
  induction bytes generalizing s stream fresh with
  | nil =>
      rw [List.append_nil] at whole ⊢
      rw [List.append_right_eq_self.mp whole.symm]
      rw [LineSplitter.bufferedLen_reads reads, counted] at within
      exact ⟨fun _ => nofun, fun _ => within⟩
  | cons b bytes ih =>
      obtain ⟨exact, weighed⟩ := push_byte reads counted b
      have split : stream ++ b :: bytes = stream ++ [b] ++ bytes := List.append_cons _ _ _
      rw [split] at whole ⊢
      have bytes_of : (contents (bytewise bytes ended)).1 = bytes := by rw [contents_bytewise]
      obtain ⟨new, later, s', pushed, parts, grown, same, after, -, read⟩ :=
        readLines_chunk limit reads counted.le [b] (bytewise bytes ended) (by rwa [bytes_of])
      rw [bytes_of] at same
      have one : new = (scan (scanned stream).2 [b]).1 :=
        List.append_cancel_left (grown.symm.trans (scanned_snoc stream b))
      have weights : (weigh (fedOf stream) fresh).1 =
          (weigh (fedOf stream) new).1 ++ (weigh (fedOf (stream ++ [b])) later).1 := by
        rw [parts, weigh_append, ← fedOf_extends grown]
        rfl
      have read : readLines limit s (bytewise (b :: bytes) ended) = _ := read
      rw [weights, parts, linesOf_append, read, handed_append, handed_ok, List.length_append,
        List.length_append, Nat.add_le_add_iff_left]
      simp only [error_behind]
      have new_fits : ∀ n ∈ (weigh (fedOf stream) new).1, n ≤ limit := fun n mem =>
        (weighed n (one ▸ mem)).trans_le within
      by_cases long : s'.bufferedLen > limit
      · rw [if_pos long]
        constructor
        · intro all
          have none : (weigh (fedOf (stream ++ [b])) later).1 = [] :=
            weigh_eq_nil.mpr (List.length_eq_zero_iff.mp (Nat.le_zero.mp all))
          rw [none, List.append_nil]
          exact new_fits
        · exact fun quiet => absurd List.mem_cons_self (quiet _ _)
      · rw [if_neg long]
        obtain ⟨lines, rest⟩ := ih after (pushed ▸ exact) (Nat.not_lt.mp long) same
        refine ⟨fun all => ?_, rest⟩
        rw [List.forall_mem_append]
        exact ⟨new_fits, lines all⟩

theorem entries_none {may : Bool} {tokens : List Token} (paired : Paired may tokens)
    (first : tokens.head? ≠ some .feed) : (entries 0 tokens).2 = 0 := by
  have carried : ∀ k tokens, k = 0 → ∀ may, Paired may tokens → tokens.head? ≠ some .feed →
      (entries k tokens).2 = 0 := by
    intro k tokens
    induction k, tokens using entries.induct with
    | case1 k => exact fun none _ _ _ => none
    | case2 k tokens ih => exact fun _ _ _ first => absurd rfl first
    | case3 k content tokens ih =>
        intro _ may paired _
        refine ih rfl false paired.2 (head_ne_feed ?_)
        rintro rest rfl
        exact absurd paired.2.1 Bool.false_ne_true
    | case4 k content tokens other ih =>
        intro _ may paired _
        rw [entries_line (head_ne_feed other)]
        exact ih rfl true paired (head_ne_feed other)
  exact carried 0 tokens rfl may paired first

/-- In one chunk, all lines come out, and only what is behind them is checked. -/
theorem readLines_whole (limit : Nat) (stream : Bytes) (ended : Option E) :
    ∃ s', readLines limit .new (.ok (.data stream) :: lastFrames ended) =
      (linesOf (scanned stream).1).map .ok ++
        if (restOf stream).length > limit then [.error (.lineTooLong limit (restOf stream).length)]
        else readLines limit s' (lastFrames ended) := by
  obtain ⟨fresh, whole, lines, carried, after⟩ :=
    LineSplitter.push_reads LineSplitter.reads_new stream
  have same : (scanned stream).1 = fresh := whole
  have none : (LineSplitter.new.push stream).drain.2.carriedTerminator = 0 := by
    rw [carried, ← same]
    exact entries_none (scanned_paired stream) (scan_inside_head [] _)
  have held : (LineSplitter.new.push stream).drain.2.bufferedLen = (restOf stream).length := by
    rw [LineSplitter.bufferedLen_reads after, none]
    rfl
  refine ⟨(LineSplitter.new.push stream).drain.2, ?_⟩
  have text : (LineSplitter.new.push stream).drain.1.map (fun line => (.ok line.1 : Line E)) =
      (linesOf (scanned stream).1).map .ok := by
    rw [same, ← entries_lines, ← lines, List.map_map]
    rfl
  rw [readLines, text, held]

/-! ## The claim of a limit on lines -/

/-- A stream with its end is read alike, however its body is cut into frames, and what is read
keeps to the limit and to the stream. -/
structure ReadAlike (limit : Nat) (stream : Bytes) (ended : Option E) : Prop where
  runs : ∀ frames, contents frames = (stream, ended) →
    ∃ out, (LineStream.new ⟨frames, false⟩ limit).Yields out
  alike : ∀ frames frames' out out', contents frames = (stream, ended) →
    contents frames' = (stream, ended) → (LineStream.new ⟨frames, false⟩ limit).Yields out →
      (LineStream.new ⟨frames', false⟩ limit).Yields out' → out.map shown = out'.map shown
  short : ∀ frames out, contents frames = (stream, ended) →
    (LineStream.new ⟨frames, false⟩ limit).Yields out → ∀ line ∈ handed out, line.length ≤ limit
  ends : ∀ frames out, contents frames = (stream, ended) →
    (LineStream.new ⟨frames, false⟩ limit).Yields out → EndsRight stream ended out

theorem shown_of_even {limit : Nat} (mark_fits : 3 ≤ limit) {frames : List (Except E BodyFrame)}
    (even : Even limit (contents frames).1) : (readLines limit .new frames).map shown =
      (linesOf (scanned (contents frames).1).1).map .ok ++
        endOf limit (contents frames).1 (contents frames).2 :=
  readLines_of_even mark_fits frames (show Even limit ([] ++ (contents frames).1) from even)
    LineSplitter.reads_new (Nat.zero_le _) (Nat.zero_le _) rfl

theorem handed_of_even {limit : Nat} {stream : Bytes} {ended : Option E} (even : Even limit stream)
    {line : Bytes} {out : List (Line E)} (mem : line ∈ handed out)
    (same : out.map shown = (linesOf (scanned stream).1).map .ok ++ endOf limit stream ended) :
    line.length ≤ limit := by
  obtain ⟨a, answered, seen⟩ := List.mem_filterMap.mp mem
  have said : (.ok line : Except (Option E) Bytes) ∈ out.map shown := by
    refine List.mem_map.mpr ⟨a, answered, ?_⟩
    cases a with
    | ok line' =>
        cases seen
        rfl
    | error e => cases seen
  rw [same] at said
  rcases List.mem_append.mp said with ended | last
  · obtain ⟨line', mem, same⟩ := List.mem_map.mp ended
    cases same
    have counted : ∃ n ∈ (weigh false (scanned stream).1).1, line.length ≤ n := le_weigh mem
    obtain ⟨n, mem, le⟩ := counted
    exact le.trans (even.lines n mem)
  · unfold endOf at last
    split at last
    · cases List.mem_singleton.mp last
    next fits =>
      cases ended with
      | some e => cases List.mem_singleton.mp last
      | none =>
          obtain ⟨line', mem, same⟩ := List.mem_map.mp last
          cases same
          unfold restLine at mem
          split at mem
          · cases mem
          · rw [List.mem_singleton.mp mem]
            exact Nat.not_lt.mp fits

/-- A stream is read alike exactly when it is even. -/
theorem readAlike_iff {limit : Nat} (mark_fits : 3 ≤ limit) (stream : Bytes) (ended : Option E) :
    ReadAlike limit stream ended ↔ Even limit stream := by
  constructor
  · intro read
    obtain ⟨s', whole⟩ := readLines_whole limit stream ended
    have alike := read.alike (.ok (.data stream) :: lastFrames ended) (bytewise stream ended) _ _
      (by
        rw [contents, contents_last]
        exact congrArg (·, ended) (List.append_nil stream))
      (contents_bytewise stream ended) (LineStream.yields_new.mpr rfl)
      (LineStream.yields_new.mpr rfl)
    have all : (scanned ([] ++ stream)).1 = (scanned []).1 ++ (scanned stream).1 := rfl
    obtain ⟨lines, rest⟩ := even_of_bytewise stream ended LineSplitter.reads_new rfl
      (Nat.zero_le limit) all
    refine ⟨lines ?_, ?_⟩
    · rw [← handed_of_shown alike, whole, handed_append, handed_ok, List.length_append]
      exact Nat.le_add_right _ _
    · by_cases long : (restOf stream).length > limit
      · exact .inr long
      · refine .inl (rest fun m n refused => ?_)
        have shows := mem_shown.mpr ⟨m, n, refused⟩
        rw [← alike, mem_shown] at shows
        obtain ⟨m', n', refused'⟩ := shows
        rw [whole, if_neg long, error_behind] at refused'
        cases ended with
        | some e => cases List.mem_singleton.mp refused'
        | none =>
            rw [lastFrames, readLines, tailOf] at refused'
            split at refused'
            · cases refused'
            · cases List.mem_singleton.mp refused'
  · intro even
    refine ⟨fun frames _ => ⟨_, LineStream.yields_new.mpr rfl⟩, ?_, ?_, ?_⟩
    · intro frames frames' out out' cut cut' yields yields'
      rw [LineStream.yields_new.mp yields, LineStream.yields_new.mp yields',
        shown_of_even mark_fits (by rw [cut]; exact even),
        shown_of_even mark_fits (by rw [cut']; exact even), cut, cut']
    · intro frames out cut yields line mem
      have even : Even limit (contents frames).1 := by rw [cut]; exact even
      have shows := shown_of_even mark_fits even
      rw [cut] at even shows
      exact handed_of_even even mem (LineStream.yields_new.mp yields ▸ shows)
    · intro frames out cut yields
      have all : (scanned ([] ++ (contents frames).1)).1 =
          (scanned []).1 ++ (scanned (contents frames).1).1 := rfl
      obtain ⟨clean, broken⟩ :=
        readLines_ends limit frames LineSplitter.reads_new (Nat.zero_le _) all
      rw [LineStream.yields_new.mp yields]
      rw [List.nil_append, cut] at clean
      rw [cut] at broken
      exact ⟨clean, broken⟩

theorem readAlike_iff_records :
    ReadAlike (E := Unit) 3 (Bytes.ascii "abc\r\nde\nfgh\n") none :=
  (readAlike_iff (by decide) _ _).mpr (by decide)

/-- A line that is too long passes in one chunk with its end, and fails in front of it. -/
theorem long_line_passes :
    ¬ ∀ (limit : Nat) (stream : Bytes) (ended : Option Unit), 3 ≤ limit →
      ReadAlike limit stream ended := by
  intro read
  have alike := (read 3 (Bytes.ascii "abcd\n") none le_rfl).alike
    [.ok (.data (Bytes.ascii "abcd\n"))]
    [.ok (.data (Bytes.ascii "abcd")), .ok (.data (Bytes.ascii "\n"))] _ _ rfl rfl
    (LineStream.yields_new.mpr rfl) (LineStream.yields_new.mpr rfl)
  revert alike
  decide

end

end HClient.Lines
