import Mathlib.Data.List.Infix
import Mathlib.Tactic.Common

/-!
# Multipart entities

A reader of RFC 2046: a delimiter is the boundary behind a line break and two dashes, wherever it
stands. It reads back what is written with a boundary that no entity holds.
-/
namespace HClient.Mime

def crlf : List UInt8 := [13, 10]

def dashes : List UInt8 := [45, 45]

def delimiter (boundary : List UInt8) : List UInt8 := crlf ++ dashes ++ boundary

/-- What precedes the first place where `d` stands, and what follows it. -/
def cutAt (d : List UInt8) : List UInt8 → Option (List UInt8 × List UInt8)
  | [] => none
  | c :: cs =>
      if d.isPrefixOf (c :: cs) then some ([], (c :: cs).drop d.length)
      else (cutAt d cs).map fun (before, after) => (c :: before, after)

theorem cutAt_shortens {d s before after : List UInt8} (proper : d ≠ [])
    (cut : cutAt d s = some (before, after)) : after.length < s.length := by
  induction s generalizing before with
  | nil => cases cut
  | cons c cs ih =>
      rw [cutAt] at cut
      split at cut
      · cases cut
        have long := List.length_pos_iff.mpr proper
        rw [List.length_drop, List.length_cons]
        omega
      · obtain ⟨⟨before', after'⟩, later, same⟩ := Option.map_eq_some_iff.mp cut
        cases same
        exact Nat.lt_succ_of_lt (ih later)

/-- A separator that is not found again inside of itself is found where it was put. -/
theorem cutAt_first {a : UInt8} {d s : List UInt8} (alone : a ∉ d) (fresh : ¬ a :: d <:+: s)
    (t : List UInt8) : cutAt (a :: d) (s ++ a :: (d ++ t)) = some (s, t) := by
  induction s with
  | nil =>
      have there : (a :: d).isPrefixOf (a :: (d ++ t)) = true := by
        rw [← List.cons_append, List.isPrefixOf_iff_prefix]
        exact List.prefix_append _ _
      rw [List.nil_append, cutAt, if_pos there, ← List.cons_append, List.drop_left]
  | cons c s ih =>
      have absent : (a :: d).isPrefixOf (c :: s ++ a :: (d ++ t)) = false := by
        apply eq_false_of_ne_true
        rw [List.isPrefixOf_iff_prefix]
        intro found
        rcases List.prefix_or_prefix_of_prefix found (List.prefix_append _ _) with inside | across
        · exact fresh inside.isInfix
        · obtain ⟨u, parts⟩ := across
          rw [← parts, List.prefix_append_right_inj] at found
          cases u with
          | nil =>
              rw [List.append_nil] at parts
              exact fresh (parts ▸ List.infix_rfl)
          | cons b u =>
              obtain ⟨rfl, _⟩ := List.cons_prefix_cons.mp found
              have rest := (List.cons.inj parts).2
              exact alone (rest ▸ List.mem_append_right _ List.mem_cons_self)
      have later := ih fun found => fresh (List.infix_cons found)
      rw [List.cons_append] at absent ⊢
      rw [cutAt, absent, if_neg Bool.false_ne_true, later]
      rfl

/-- The header lines of an entity, up to an empty line, and its body. -/
def readFields (s : List UInt8) : Option (List (List UInt8) × List UInt8) :=
  match _cut : cutAt crlf s with
  | none => none
  | some (line, rest) =>
      if line = [] then some ([], rest)
      else (readFields rest).map fun (fields, body) => (line :: fields, body)
termination_by s.length
decreasing_by exact cutAt_shortens (List.cons_ne_nil _ _) _cut

structure Entity where
  fields : List (List UInt8)
  body : List UInt8
  deriving DecidableEq, Repr

/-- Blanks between a boundary and the end of its line. -/
def isPadding (b : UInt8) : Bool := b = 32 || b = 9

/-- What follows the line of a delimiter. -/
def afterLine (s : List UInt8) : Option (List UInt8) :=
  match s.dropWhile isPadding with
  | 13 :: 10 :: content => some content
  | _ => none

theorem afterLine_shortens {s content : List UInt8} (opened : afterLine s = some content) :
    content.length < s.length := by
  have fewer := (List.dropWhile_suffix (p := isPadding) (l := s)).length_le
  unfold afterLine at opened
  split at opened
  · rename_i rest
    cases opened
    rw [rest] at fewer
    simp only [List.length_cons] at fewer
    omega
  · cases opened

theorem afterLine_crlf (rest : List UInt8) : afterLine (crlf ++ rest) = some rest := rfl

theorem delimiter_ne_nil (boundary : List UInt8) : delimiter boundary ≠ [] := List.cons_ne_nil _ _

/-- The entities behind a delimiter, up to one that closes. -/
def readEntities (boundary s : List UInt8) : Option (List Entity) :=
  if dashes.isPrefixOf s then some []
  else
    match _opened : afterLine s with
    | none => none
    | some content =>
        match _cut : cutAt (delimiter boundary) content with
        | none => none
        | some (part, rest) =>
            (readFields part).bind fun (fields, body) =>
              (readEntities boundary rest).map (⟨fields, body⟩ :: ·)
termination_by s.length
decreasing_by
  exact Nat.lt_trans (cutAt_shortens (delimiter_ne_nil _) _cut) (afterLine_shortens _opened)

/-- The entities of a multipart body. What precedes the first delimiter and follows the one that
closes is left out. -/
def read (boundary s : List UInt8) : Option (List Entity) :=
  (cutAt (delimiter boundary) (crlf ++ s)).bind fun (_, rest) =>
    readEntities boundary rest

/-! ## What is written is read -/

namespace Entity

/-- Header lines, an empty one, and the body. -/
def bytes (e : Entity) : List UInt8 := e.fields.flatMap (· ++ crlf) ++ crlf ++ e.body

/-- Lines that are lines, and not those of a delimiter, and a body in which no delimiter stands. -/
structure Fresh (boundary : List UInt8) (e : Entity) : Prop where
  lines : ∀ line ∈ e.fields, line ≠ [] ∧ 13 ∉ line ∧ line.head? ≠ some 45
  body : ¬ delimiter boundary <:+: crlf ++ e.body

end Entity

/-- What follows a delimiter before entities, and then the end. -/
def following (boundary : List UInt8) (entities : List Entity) (tail : List UInt8) : List UInt8 :=
  match entities with
  | [] => dashes ++ tail
  | e :: rest => crlf ++ e.bytes ++ delimiter boundary ++ following boundary rest tail

theorem readFields_eq {s line rest : List UInt8} (cut : cutAt crlf s = some (line, rest)) :
    readFields s = if line = [] then some ([], rest)
      else (readFields rest).map fun (fields, body) => (line :: fields, body) := by
  rw [readFields]
  split
  · rename_i absent
    rw [absent] at cut
    cases cut
  · rename_i found
    rw [cut] at found
    cases found
    rfl

theorem not_infix_of_not_mem {a : UInt8} {d s : List UInt8} (absent : a ∉ s) : ¬ a :: d <:+: s :=
  fun found => absent (found.subset List.mem_cons_self)

theorem cutAt_line {line : List UInt8} (whole : 13 ∉ line) (rest : List UInt8) :
    cutAt crlf (line ++ crlf ++ rest) = some (line, rest) := by
  rw [List.append_assoc]
  exact cutAt_first (by decide) (not_infix_of_not_mem whole) rest

theorem readFields_bytes {e : Entity} (lines : ∀ line ∈ e.fields, line ≠ [] ∧ 13 ∉ line) :
    readFields e.bytes = some (e.fields, e.body) := by
  rcases e with ⟨fields, body⟩
  unfold Entity.bytes
  induction fields with
  | nil =>
      have cut := @cutAt_line [] List.not_mem_nil body
      exact (readFields_eq cut).trans (if_pos rfl)
  | cons line fields ih =>
      obtain ⟨proper, whole⟩ := lines line List.mem_cons_self
      have later := ih fun line member => lines line (List.mem_cons_of_mem _ member)
      have cut := cutAt_line whole (fields.flatMap (· ++ crlf) ++ crlf ++ body)
      have parts : (line :: fields).flatMap (· ++ crlf) ++ crlf ++ body =
          line ++ crlf ++ (fields.flatMap (· ++ crlf) ++ crlf ++ body) := by
        simp only [List.flatMap_cons, List.append_assoc]
      dsimp only at later ⊢
      rw [parts, readFields_eq cut, if_neg proper, later]
      rfl

/-- A delimiter behind a line stands in what follows it. -/
theorem infix_of_line {boundary line rest : List UInt8} (whole : 13 ∉ line)
    (other : rest.head? ≠ some 45) (found : delimiter boundary <:+: line ++ crlf ++ rest) :
    delimiter boundary <:+: rest := by
  induction line with
  | nil =>
      rcases List.infix_cons_iff.mp found with first | found
      · -- the line break would be that of a delimiter
        obtain ⟨t, parts⟩ := first
        have tail : 45 :: (45 :: boundary ++ t) = rest := (List.cons.inj (List.cons.inj parts).2).2
        rw [← tail] at other
        exact absurd rfl other
      · rcases List.infix_cons_iff.mp found with first | found
        · obtain ⟨t, parts⟩ := first
          exact absurd (List.cons.inj parts).1 (by decide)
        · exact found
  | cons c line ih =>
      obtain ⟨apart, whole⟩ := not_or.mp (mt List.mem_cons.mpr whole)
      rcases List.infix_cons_iff.mp found with first | found
      · obtain ⟨t, parts⟩ := first
        exact absurd (List.cons.inj parts).1 apart
      · exact ih whole found

/-- No delimiter stands in an entity. -/
theorem Entity.Fresh.bytes {boundary : List UInt8} {e : Entity} (fresh : e.Fresh boundary) :
    ¬ delimiter boundary <:+: e.bytes := by
  rcases e with ⟨fields, body⟩
  obtain ⟨lines, alone⟩ := fresh
  unfold Entity.bytes
  dsimp only at lines alone ⊢
  induction fields with
  | nil => exact alone
  | cons line fields ih =>
      have others := fun line' member => lines line' (List.mem_cons_of_mem _ member)
      obtain ⟨_, whole, _⟩ := lines line List.mem_cons_self
      have parts : (line :: fields).flatMap (· ++ crlf) ++ crlf ++ body =
          line ++ crlf ++ (fields.flatMap (· ++ crlf) ++ crlf ++ body) := by
        simp only [List.flatMap_cons, List.append_assoc]
      have first : (fields.flatMap (· ++ crlf) ++ crlf ++ body).head? ≠ some 45 := by
        cases fields with
        | nil => exact fun same => absurd same (by simp [crlf])
        | cons next fields =>
            obtain ⟨proper, _, other⟩ := others next List.mem_cons_self
            obtain ⟨c, next, rfl⟩ := List.exists_cons_of_ne_nil proper
            exact other
      rw [parts]
      exact fun found => ih others (infix_of_line whole first found)

theorem readEntities_eq {boundary s content part rest body : List UInt8}
    {fields : List (List UInt8)}
    (goes : dashes.isPrefixOf s = false) (opened : afterLine s = some content)
    (cut : cutAt (delimiter boundary) content = some (part, rest))
    (fielded : readFields part = some (fields, body)) :
    readEntities boundary s = (readEntities boundary rest).map (⟨fields, body⟩ :: ·) := by
  rw [readEntities, goes, if_neg Bool.false_ne_true]
  split
  · rename_i absent
    rw [opened] at absent
    cases absent
  · rename_i content' same
    rw [opened] at same
    cases same
    split
    · rename_i absent
      rw [cut] at absent
      cases absent
    · rename_i found
      rw [cut] at found
      cases found
      rw [fielded]
      rfl

theorem readEntities_following {boundary : List UInt8} (plain : 13 ∉ boundary)
    {entities : List Entity} (fresh : ∀ e ∈ entities, e.Fresh boundary) (tail : List UInt8) :
    readEntities boundary (following boundary entities tail) = some entities := by
  induction entities with
  | nil =>
      rw [following, readEntities, if_pos]
      exact List.isPrefixOf_iff_prefix.mpr (List.prefix_append _ _)
  | cons e entities ih =>
      obtain ⟨here, later⟩ := List.forall_mem_cons.mp fresh
      have alone : (13 : UInt8) ∉ 10 :: (dashes ++ boundary) := by
        simp [dashes, plain]
      have opened : afterLine (following boundary (e :: entities) tail) =
          some (e.bytes ++ delimiter boundary ++ following boundary entities tail) := by
        simp only [following, List.append_assoc, afterLine_crlf]
      have cut : cutAt (delimiter boundary)
          (e.bytes ++ delimiter boundary ++ following boundary entities tail) =
          some (e.bytes, following boundary entities tail) := by
        rw [List.append_assoc]
        exact cutAt_first alone here.bytes _
      have fielded := readFields_bytes fun line member =>
        ⟨(here.lines line member).1, (here.lines line member).2.1⟩
      rw [readEntities_eq rfl opened cut fielded, ih later]
      rfl

/-- What is written between delimiters is read. -/
theorem read_written {boundary : List UInt8} (plain : 13 ∉ boundary) {entities : List Entity}
    (fresh : ∀ e ∈ entities, e.Fresh boundary) {s tail : List UInt8}
    (written : crlf ++ s = delimiter boundary ++ following boundary entities tail) :
    read boundary s = some entities := by
  have alone : (13 : UInt8) ∉ 10 :: (dashes ++ boundary) := by
    simp [dashes, plain]
  have first : cutAt (delimiter boundary) (crlf ++ s) =
      some ([], following boundary entities tail) := by
    rw [written]
    exact cutAt_first (s := []) alone (not_infix_of_not_mem List.not_mem_nil) _
  rw [read, first]
  exact readEntities_following plain fresh tail

end HClient.Mime
