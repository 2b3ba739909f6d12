import HClient.Core.Text

/-!
# Words

What stands between blanks: the runs of a list that hold none, in order. `p` tells what is blank.
And the lines of a text, which cut no word.
-/
namespace HClient.Runs

variable {α : Type} {p : α → Bool}

def words (p : α → Bool) (s : List α) : List (List α) := (s.splitOnP p).filter (· ≠ [])

@[simp] theorem words_nil : words p ([] : List α) = [] := rfl

theorem ne_nil_of_mem_words {s word : List α} (member : word ∈ words p s) : word ≠ [] :=
  of_decide_eq_true (List.mem_filter.mp member).2

theorem words_append {c : α} (blank : p c = true) (s t : List α) :
    words p (s ++ c :: t) = words p s ++ words p t := by
  rw [words, List.splitOnP_append_cons s t blank, List.filter_append]
  rfl

theorem words_blanks {lead : List α} (blanks : ∀ c ∈ lead, p c = true) (s : List α) :
    words p (lead ++ s) = words p s := by
  induction lead with
  | nil => rfl
  | cons c lead ih =>
      have front := words_append (blanks c List.mem_cons_self) [] (lead ++ s)
      rw [ih fun d member => blanks d (List.mem_cons_of_mem _ member)] at front
      exact front

theorem words_word {word rest : List α} (occupied : word ≠ []) (inside : ∀ c ∈ word, p c = false)
    (ends : ∀ c ∈ rest.head?, p c = true) : words p (word ++ rest) = word :: words p rest := by
  have alone : words p word = [word] := by
    rw [words, List.splitOnP_eq_singleton inside]
    exact List.filter_cons_of_pos (by simpa using occupied)
  cases rest with
  | nil => rw [List.append_nil, alone, words_nil]
  | cons c rest =>
      have behind := words_append (ends c rfl) [] rest
      rw [words_append (ends c rfl), alone, List.singleton_append]
      exact congrArg (word :: ·) behind.symm

/-- A cut at blanks cuts no word. -/
theorem flatMap_words_splitOnP {q : α → Bool} (blank : ∀ c, q c = true → p c = true) (s : List α) :
    (s.splitOnP q).flatMap (words p) = words p s := by
  have held : ∀ acc, (List.splitOnPPrepend q s acc).flatMap (words p) =
      words p (acc.reverse ++ s) := by
    induction s with
    | nil =>
        intro acc
        rw [List.splitOnPPrepend_nil, List.flatMap_singleton, List.append_nil]
    | cons c s ih =>
        intro acc
        cases cut : q c with
        | true =>
            rw [List.splitOnPPrepend_cons_pos cut, List.flatMap_cons, words_append (blank c cut),
              ← List.splitOnPPrepend_nil_right, ih]
            rfl
        | false =>
            rw [List.splitOnPPrepend_cons_neg cut, ih, List.reverse_cons, List.append_assoc]
            rfl
  exact held []

end HClient.Runs

namespace HClient.Text

/-- `str::split_whitespace`. -/
def splitWhitespace (s : Text) : List Text := Runs.words isWhitespace s

/-- `strip_suffix('\r').unwrap_or(..)`. -/
def dropReturn (line : Text) : Text := (stripSuffix ['\r'] line).getD line

/-- `str::lines`. What stands behind the last feed is a line where it is not empty, and keeps its
return. -/
def lines (s : Text) : List Text :=
  let pieces := s.splitOnP (· = '\n')
  pieces.dropLast.map dropReturn ++ pieces.getLast?.toList.filter (· ≠ [])

theorem splitWhitespace_dropReturn (line : Text) :
    splitWhitespace (dropReturn line) = splitWhitespace line := by
  unfold dropReturn stripSuffix
  split
  next ended =>
    obtain ⟨front, rfl⟩ := List.isSuffixOf_iff_suffix.mp ended
    have last := Runs.words_append (p := isWhitespace) (c := '\r') rfl front []
    rw [Runs.words_nil, List.append_nil] at last
    rw [Option.getD_some, List.length_append, Nat.add_sub_cancel, List.take_left]
    exact last.symm
  · rfl

/-- The words of the lines are those of the text. -/
theorem flatMap_splitWhitespace_lines (s : Text) :
    (lines s).flatMap splitWhitespace = splitWhitespace s := by
  have feeds : ∀ c : Char, decide (c = '\n') = true → isWhitespace c = true := by
    intro c feed
    rw [of_decide_eq_true feed]
    rfl
  have whole := Runs.flatMap_words_splitOnP feeds s
  obtain ⟨front, last, split⟩ := List.eq_nil_or_concat'
    (s.splitOnP (· = '\n')) |>.resolve_left (List.splitOnP_ne_nil _ _)
  have kept : ([last].filter (· ≠ [])).flatMap splitWhitespace = splitWhitespace last := by
    by_cases empty : last = []
    · rw [empty]
      rfl
    · rw [List.filter_cons_of_pos (by simpa using empty)]
      exact List.append_nil _
  rw [split, List.flatMap_append, List.flatMap_singleton] at whole
  simp only [lines, split, List.dropLast_concat, List.getLast?_concat, List.flatMap_append,
    List.flatMap_map, Option.toList_some, kept, splitWhitespace_dropReturn]
  exact whole

end HClient.Text

/-!
## Runs

The longest run with a property at the front of a list, which `takeWhile` takes and `dropWhile`
drops.
-/
namespace HClient.Runs

variable {α : Type} {p : α → Bool} {s rest : List α}

theorem takeWhile_run (run : ∀ a ∈ s, p a = true) (ends : ∀ a ∈ rest.head?, p a = false) :
    (s ++ rest).takeWhile p = s := by
  rw [List.takeWhile_append_of_pos run]
  cases rest with
  | nil => rw [List.takeWhile_nil, List.append_nil]
  | cons a rest =>
      have stops : ¬ p a = true := by
        rw [ends a rfl]
        exact Bool.false_ne_true
      rw [List.takeWhile_cons_of_neg stops, List.append_nil]

theorem dropWhile_run (run : ∀ a ∈ s, p a = true) (ends : ∀ a ∈ rest.head?, p a = false) :
    (s ++ rest).dropWhile p = rest := by
  have split := List.takeWhile_append_dropWhile (p := p) (l := s ++ rest)
  rw [takeWhile_run run ends] at split
  exact List.append_cancel_left split

/-- What stands behind the run does not have the property. -/
theorem dropWhile_ends (p : α → Bool) (s : List α) : ∀ a ∈ (s.dropWhile p).head?, p a = false := by
  intro a there
  have ends := List.head?_dropWhile_not p s
  rw [Option.mem_def.mp there] at ends
  exact ends

theorem drop_takeWhile (p : α → Bool) (s : List α) :
    s.drop (s.takeWhile p).length = s.dropWhile p := by
  have dropped : (s.takeWhile p ++ s.dropWhile p).drop (s.takeWhile p).length = s.dropWhile p :=
    List.drop_left
  rwa [List.takeWhile_append_dropWhile] at dropped

/-! ## What stands first -/

theorem forall_head {q : α → Prop} {a : α} (first : q a) : ∀ b ∈ (a :: s).head?, q b := by
  intro b there
  cases there
  exact first

theorem forall_head_append {q : α → Prop} (occupied : s ≠ []) (all : ∀ a ∈ s, q a) (t : List α) :
    ∀ b ∈ (s ++ t).head?, q b := by
  obtain ⟨a, rest, rfl⟩ := List.exists_cons_of_ne_nil occupied
  exact forall_head (all a List.mem_cons_self)

theorem forall_head_run {q : α → Prop} (all : ∀ a ∈ s, q a) {t : List α}
    (ends : ∀ b ∈ t.head?, q b) : ∀ b ∈ (s ++ t).head?, q b := by
  cases s with
  | nil => exact ends
  | cons a s => exact forall_head (all a List.mem_cons_self)

end HClient.Runs
