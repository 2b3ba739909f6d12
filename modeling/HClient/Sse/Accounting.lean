import HClient.Sse.Lines

/-!
# The accounts of the line splitter

Whatever the calls, every byte pushed is counted once: in a line that was returned, in what is
held for the next one, or in the mark. And the lines returned with what is held at the end are the
bytes pushed, without the mark and the terminators.
-/
namespace HClient.Sse
namespace LineSplitter

inductive Call where
  | push (chunk : Bytes)
  | nextLine

/-- The lines returned so far, with the bytes each of them took, and the splitter. -/
abbrev Returned := List (Bytes × Nat) × LineSplitter

def call (r : Returned) : Call → Returned
  | .push chunk => (r.1, r.2.push chunk)
  | .nextLine =>
      match r.2.nextLine with
      | some (line, s) => (r.1 ++ [line], s)
      | none => r

def calls (made : List Call) : Returned := made.foldl call ([], new)

def Call.bytes : Call → Bytes
  | .push chunk => chunk
  | .nextLine => []

/-- All that was pushed. -/
def pushed (made : List Call) : Bytes := made.flatMap Call.bytes

def consumed (lines : List (Bytes × Nat)) : Nat := (lines.map Prod.snd).sum

def contents (lines : List (Bytes × Nat)) : Bytes := (lines.map Prod.fst).flatten

variable {s s' : LineSplitter} {line : Bytes × Nat} {r : Returned} {stream chunk : Bytes}

/-! ## One call -/

theorem filter_line {content behind : Bytes} {b : UInt8} (plain : Plain content)
    (ends : b = lf ∨ b = cr) :
    (content ++ b :: behind).filter inLine = content ++ behind.filter inLine := by
  have kept : content.filter inLine = content :=
    List.filter_eq_self.mpr fun c member => inLine_iff.mpr (plain c member)
  have stops : ¬ inLine b = true := by
    rw [inLine_iff, not_and_or, not_not, not_not]
    exact ends
  rw [List.filter_append, kept, List.filter_cons_of_neg stops]

/-- A line is taken off what is held, and counted with its terminator. -/
theorem nextLine_accounts (next : s.nextLine = some (line, s')) :
    s'.bomDone = s.bomDone ∧ s'.bomSeen = s.bomSeen ∧
      line.2 + s'.bufferedLen = s.bufferedLen ∧
      line.1 ++ s'.buf.filter inLine = s.buf.filter inLine := by
  rcases plain_or_line s.buf with plain | ⟨content, b, behind, buf, plain, ends⟩
  · rw [nextLine_plain plain] at next
    cases next
  · have kept := @filter_line content behind b plain ends
    have long : s.buf.length = content.length + (behind.length + 1) := by
      rw [buf, List.length_append, List.length_cons]
    rw [nextLine_line plain ends buf] at next
    rw [buf, kept]
    unfold bufferedLen
    split at next
    · split at next
      · cases next
        refine ⟨rfl, rfl, ?_, rfl⟩
        dsimp only
        simp only [List.length_nil] at long ⊢
        omega
      · split at next
        next feed =>
          cases next
          refine ⟨rfl, rfl, ?_, ?_⟩
          · dsimp only
            simp only [List.length_cons] at long
            omega
          · have ends' : ¬ inLine lf = true := by decide
            rw [feed, List.filter_cons_of_neg ends']
        · cases next
          refine ⟨rfl, rfl, ?_, rfl⟩
          dsimp only
          omega
    · cases next
      refine ⟨rfl, rfl, ?_, rfl⟩
      dsimp only
      omega

theorem plain_of_nextLine (waits : s.nextLine = none) : Plain s.buf := by
  rcases plain_or_line s.buf with plain | ⟨content, b, behind, buf, plain, ends⟩
  · exact plain
  · rw [nextLine_line plain ends buf] at waits
    split at waits
    · split at waits
      · cases waits
      · split at waits <;> cases waits
    · cases waits

theorem pushByte_accounts (s : LineSplitter) (b : UInt8) :
    (s.pushByte b).bomDone = s.bomDone ∧ (s.pushByte b).bufferedLen = s.bufferedLen + 1 ∧
      (s.pushByte b).buf.filter inLine = s.buf.filter inLine ++ [b].filter inLine := by
  unfold pushByte
  split
  next swallowed =>
    refine ⟨rfl, rfl, ?_⟩
    rw [swallowed.2]
    exact (List.append_nil _).symm
  · refine ⟨rfl, ?_, List.filter_append ..⟩
    unfold bufferedLen
    dsimp only
    rw [List.length_append, List.length_singleton]
    omega

theorem foldl_pushByte_accounts (s : LineSplitter) (bytes : Bytes) :
    (bytes.foldl pushByte s).bomDone = s.bomDone ∧
      (bytes.foldl pushByte s).bufferedLen = s.bufferedLen + bytes.length ∧
      (bytes.foldl pushByte s).buf.filter inLine = s.buf.filter inLine ++ bytes.filter inLine := by
  induction bytes generalizing s with
  | nil => exact ⟨rfl, rfl, (List.append_nil _).symm⟩
  | cons b bytes ih =>
      obtain ⟨done, counted, kept⟩ := pushByte_accounts s b
      obtain ⟨done', counted', kept'⟩ := ih (s.pushByte b)
      rw [List.foldl_cons]
      refine ⟨done'.trans done, ?_, ?_⟩
      · rw [counted', counted, List.length_cons]
        omega
      · rw [kept', kept, List.append_assoc, ← List.filter_append]
        rfl

/-! ## Any calls -/

/-- The accounts between two calls: while the mark may still come, nothing else has. -/
structure Accounts (r : Returned) (stream : Bytes) : Prop where
  mark : (Undecided stream ∧ r = ([], undecided stream)) ∨
    (¬ Undecided stream ∧ r.2.bomDone = true)
  counted : consumed r.1 + r.2.bufferedLen = (unmarked stream).length
  kept : contents r.1 ++ r.2.takeUnterminated.1.filter inLine = (unmarked stream).filter inLine

theorem takeUnterminated_done (done : s.bomDone = true) : s.takeUnterminated.1 = s.buf := by
  rw [takeUnterminated, if_pos done]

theorem takeUnterminated_undecided (waits : Undecided stream) :
    (undecided stream).takeUnterminated.1 = stream := by
  obtain ⟨-, tail, whole⟩ := waits
  change bom.take stream.length = stream
  rw [← whole, List.take_left]

theorem unmarked_undecided (waits : Undecided stream) : unmarked stream = stream := by
  apply unmarked_of_plain
  intro marked
  exact absurd marked.length_le (Nat.not_le.mpr waits.1)

theorem accounts_undecided (waits : Undecided stream) :
    Accounts ([], undecided stream) stream where
  mark := .inl ⟨waits, rfl⟩
  counted := by
    rw [unmarked_undecided waits]
    simp [consumed, bufferedLen, undecided, new]
  kept := by
    rw [unmarked_undecided waits, takeUnterminated_undecided waits]
    rfl

theorem Accounts.nextLine (accounts : Accounts r stream) : Accounts (call r .nextLine) stream := by
  unfold call
  cases next : r.2.nextLine with
  | none => exact accounts
  | some taken =>
      obtain ⟨line, s'⟩ := taken
      obtain ⟨done, -, counted, kept⟩ := nextLine_accounts next
      rcases accounts.mark with ⟨-, rfl⟩ | ⟨decided, done'⟩
      · have nothing : (undecided stream).nextLine = none := nextLine_plain plain_nil
        rw [nothing] at next
        cases next
      · have before := accounts.counted
        have before' := accounts.kept
        rw [takeUnterminated_done done'] at before'
        refine ⟨.inr ⟨decided, done.trans done'⟩, ?_, ?_⟩
        · rw [← before, ← counted, consumed, consumed, List.map_append, List.sum_append]
          simp only [List.map_cons, List.map_nil, List.sum_singleton]
          omega
        · rw [← before', ← kept, takeUnterminated_done (done.trans done'), contents, contents,
            List.map_append, List.flatten_append]
          simp

theorem Accounts.push (accounts : Accounts r stream) (chunk : Bytes) :
    Accounts (call r (.push chunk)) (stream ++ chunk) := by
  have fed : call r (.push chunk) = (r.1, r.2.push chunk) := rfl
  rcases accounts.mark with ⟨waits, rfl⟩ | ⟨decided, done⟩
  · rcases resolveBom_undecided waits chunk with
      ⟨still, same⟩ | ⟨decided, n, held, rest, resolved, plain, whole⟩
    · have state : (undecided stream).push chunk = undecided (stream ++ chunk) := by
        rw [LineSplitter.push, same]
        rfl
      rw [fed, state]
      exact accounts_undecided still
    · let begun : LineSplitter := { new with buf := held, bomSeen := n, bomDone := true }
      have state : (undecided stream).push chunk = rest.foldl pushByte begun := by
        rw [LineSplitter.push, resolved]
      obtain ⟨done, counted, kept⟩ := foldl_pushByte_accounts begun rest
      rw [fed, state]
      refine ⟨.inr ⟨decided, done⟩, ?_, ?_⟩
      · rw [← whole, counted, List.length_append]
        exact Nat.zero_add _
      · rw [takeUnterminated_done done, kept, ← whole, List.filter_append]
        rfl
  · have state : r.2.push chunk = chunk.foldl pushByte r.2 := by
      rw [LineSplitter.push, resolveBom_done done]
    obtain ⟨done', counted, kept⟩ := foldl_pushByte_accounts r.2 chunk
    have before := accounts.counted
    have before' := accounts.kept
    rw [takeUnterminated_done done] at before'
    rw [fed, state]
    refine ⟨.inr ⟨not_undecided_append decided chunk, done'.trans done⟩, ?_, ?_⟩
    · rw [unmarked_append decided, List.length_append, ← before]
      dsimp only
      rw [counted, Nat.add_assoc]
    · rw [unmarked_append decided, List.filter_append, ← before']
      dsimp only
      rw [takeUnterminated_done (done'.trans done), kept, List.append_assoc]

theorem accounts_calls (made : List Call) : Accounts (calls made) (pushed made) := by
  induction made using List.reverseRecOn with
  | nil => exact accounts_undecided ⟨by decide, List.nil_prefix⟩
  | append_singleton made last ih =>
      have run : calls (made ++ [last]) = call (calls made) last := List.foldl_concat ..
      have more : pushed (made ++ [last]) = pushed made ++ last.bytes := by
        rw [pushed, List.flatMap_append, List.flatMap_singleton]
        rfl
      rw [run, more]
      cases last with
      | push chunk => exact ih.push chunk
      | nextLine =>
          rw [Call.bytes, List.append_nil]
          exact ih.nextLine

theorem length_unmarked (stream : Bytes) :
    (unmarked stream).length = stream.length - if bom <+: stream then 3 else 0 := by
  split
  next marked => rw [unmarked_of_marked marked, List.length_drop]
  next plain => rw [unmarked_of_plain plain, Nat.sub_zero]

/-- After any calls the bytes counted and the bytes held are those pushed but the mark, and where
no line is left to return, the lines returned and the rest are what was pushed without the mark
and the terminators. -/
theorem calls_account (made : List Call) :
    consumed (calls made).1 + (calls made).2.bufferedLen =
        (pushed made).length - (if bom <+: pushed made then 3 else 0) ∧
      ((calls made).2.nextLine = none →
        contents (calls made).1 ++ (calls made).2.takeUnterminated.1 =
          (unmarked (pushed made)).filter inLine) := by
  have accounts := accounts_calls made
  constructor
  · rw [accounts.counted, length_unmarked]
  · intro drained
    have rest : (calls made).2.takeUnterminated.1.filter inLine =
        (calls made).2.takeUnterminated.1 := by
      apply List.filter_eq_self.mpr
      intro b member
      apply inLine_iff.mpr
      rcases accounts.mark with ⟨waits, same⟩ | ⟨-, done⟩
      · rw [same, takeUnterminated_undecided waits] at member
        exact plain_bom b (waits.2.subset member)
      · rw [takeUnterminated_done done] at member
        exact plain_of_nextLine drained b member
    rw [← accounts.kept, rest]

/-- A mark in two chunks, a line whose feed comes in the next, and the start of another. -/
theorem calls_account_cut :
    let made : List Call := [.push [0xEF, 0xBB], .nextLine, .push [0xBF, 97, 13], .nextLine,
      .nextLine, .push [10, 98], .nextLine]
    consumed (calls made).1 + (calls made).2.bufferedLen = 4 ∧
      contents (calls made).1 ++ (calls made).2.takeUnterminated.1 = [97, 98] := by
  intro made
  have account := calls_account made
  exact ⟨account.1.trans (by decide), (account.2 (by decide)).trans (by decide)⟩

end LineSplitter
end HClient.Sse
