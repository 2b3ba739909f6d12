import HClient.Core.Framer

/-!
# Lines ended in three ways

A line is ended by a return, by a feed, or by a return with a feed right behind it. Read one
symbol at a time, the last of these is a line at the return, and a feed that belongs to it.
-/
namespace HClient

variable {α β : Type}

inductive LineToken (α : Type) where
  | line (content : List α)
  | feed
  deriving DecidableEq, Repr

def LineToken.line? : LineToken α → Option (List α)
  | .line content => some content
  | .feed => none

/-- Inside a line, or right behind a return. -/
inductive LineScan (α : Type) where
  | inside (content : List α)
  | returned
  deriving DecidableEq, Repr

namespace LineScan

/-- The start of the line that has not ended. -/
def content : LineScan α → List α
  | .inside content => content
  | .returned => []

section
variable [DecidableEq α] (ret feed : α)

def endOrExtend (content : List α) (b : α) : List (LineToken α) × LineScan α :=
  if b = feed then ([.line content], .inside [])
  else if b = ret then ([.line content], .returned)
  else ([], .inside (content ++ [b]))

def step : LineScan α → α → List (LineToken α) × LineScan α
  | .inside content, b => endOrExtend ret feed content b
  | .returned, b => if b = feed then ([.feed], .inside []) else endOrExtend ret feed [] b

def run (s : LineScan α) : List α → List (LineToken α) × LineScan α
  | [] => ([], s)
  | b :: bytes => prepend (step ret feed s b).1 (run (step ret feed s b).2 bytes)

/-- The lines that have ended. -/
def linesOf (text : List α) : List (List α) :=
  (run ret feed (.inside []) text).1.filterMap LineToken.line?

end

variable [DecidableEq α] {ret feed : α}

theorem run_append (s : LineScan α) (bytes more : List α) : run ret feed s (bytes ++ more) =
    prepend (run ret feed s bytes).1 (run ret feed (run ret feed s bytes).2 more) := by
  induction bytes generalizing s with
  | nil => rfl
  | cons b bytes ih =>
      rw [List.cons_append, run, run, ih, prepend_prepend]
      rfl

/-- Neither of the two symbols that end a line. -/
def Plain (ret feed : α) (bytes : List α) : Prop := ∀ b ∈ bytes, b ≠ feed ∧ b ≠ ret

theorem run_plain {bytes : List α} (plain : Plain ret feed bytes) (content : List α) :
    run ret feed (.inside content) bytes = ([], .inside (content ++ bytes)) := by
  induction bytes generalizing content with
  | nil => rw [List.append_nil]; rfl
  | cons b bytes ih =>
      obtain ⟨other, another⟩ := plain b List.mem_cons_self
      rw [run, step, endOrExtend, if_neg other, if_neg another,
        ih fun c mem => plain c (List.mem_cons_of_mem _ mem), List.append_assoc]
      rfl

/-- What stands behind a line that has ended. -/
theorem run_line {bytes : List α} (plain : Plain ret feed bytes) (content : List α) (b : α)
    (more : List α) : run ret feed (.inside content) (bytes ++ b :: more) =
      prepend (endOrExtend ret feed (content ++ bytes) b).1
        (run ret feed (endOrExtend ret feed (content ++ bytes) b).2 more) := by
  rw [run_append, run_plain plain]
  rfl

/-- Behind a return, anything but a feed begins a line. -/
theorem run_returned {b : α} (other : b ≠ feed) (bytes : List α) :
    run ret feed .returned (b :: bytes) = run ret feed (.inside []) (b :: bytes) := by
  rw [run, run, step, step, if_neg other]

theorem run_returned_feed (bytes : List α) : run ret feed .returned (feed :: bytes) =
    prepend [.feed] (run ret feed (.inside []) bytes) := by
  rw [run, step, if_pos rfl]

/-- A feed of its own is behind a return only. -/
theorem run_inside_head (content bytes : List α) :
    (run ret feed (.inside content) bytes).1.head? ≠ some .feed := by
  induction bytes generalizing content with
  | nil => exact nofun
  | cons b bytes ih =>
      rw [run, step, endOrExtend]
      split
      · exact nofun
      split
      · exact nofun
      · exact ih _

theorem plain_step {s : LineScan α} (plain : Plain ret feed s.content) (b : α) :
    Plain ret feed (step ret feed s b).2.content := by
  have one : ∀ content, Plain ret feed content →
      Plain ret feed (endOrExtend ret feed content b).2.content := by
    intro content plain
    unfold endOrExtend
    split
    · exact nofun
    split
    · exact nofun
    · rename_i other another
      intro c mem
      rcases List.mem_append.mp mem with old | new
      · exact plain c old
      · rw [List.mem_singleton.mp new]
        exact ⟨other, another⟩
  cases s with
  | inside content => exact one content plain
  | returned =>
      rw [step]
      split
      · exact nofun
      · exact one [] nofun

/-- What has not ended holds neither of the two symbols. -/
theorem plain_run {s : LineScan α} (plain : Plain ret feed s.content) (bytes : List α) :
    Plain ret feed (run ret feed s bytes).2.content := by
  induction bytes generalizing s with
  | nil => exact plain
  | cons b bytes ih => exact ih (plain_step plain b)

end LineScan
end HClient
