import HClient.Core.Cuts
import HClient.Core.Segments

/-!
# Dot segments

RFC 3986 §5.2.4 as the client runs it: a loop over what is left of the path, with an output that it
takes segments off at the end. It comes to the fold of the segments over a stack.
-/
namespace HClient.Sansio
open HClient.Text Segments

def popSegment (out : Text) : Text :=
  match rsplitOnce '/' out with
  | some (before, _) => before
  | none => []

/-- Where the first segment of the input ends, with the separator in front of it. -/
def segmentEnd (input : Text) : Nat :=
  let start := if input.head? = some '/' then 1 else 0
  match (input.drop start).findIdx? (· == '/') with
  | some i => start + i
  | none => input.length

/-- One turn of the loop: what is left of the input, and the output. -/
def turn (input out : Text) : Text × Text :=
  match stripPrefix ['.', '.', '/'] input, stripPrefix ['.', '/'] input with
  | some rest, _ => (rest, out)
  | none, some rest => (rest, out)
  | none, none =>
      if ['/', '.', '/'].isPrefixOf input then (input.drop 2, out)
      else if input = ['/', '.'] then (['/'], out)
      else if ['/', '.', '.', '/'].isPrefixOf input then (input.drop 3, popSegment out)
      else if input = ['/', '.', '.'] then (['/'], popSegment out)
      else if input = ['.'] ∨ input = ['.', '.'] then ([], out)
      else (input.drop (segmentEnd input), out ++ input.take (segmentEnd input))

variable {input out path seg s : Text} {rest stack segs : List Text}

theorem segmentEnd_pos (left : input ≠ []) : 0 < segmentEnd input := by
  obtain ⟨c, cs, rfl⟩ := List.exists_cons_of_ne_nil left
  unfold segmentEnd
  by_cases slash : c = '/'
  · subst slash
    rw [if_pos List.head?_cons]
    dsimp only
    split
    · omega
    · exact Nat.succ_pos _
  · have apart : (c :: cs).head? ≠ some '/' := fun same => slash (Option.some.inj same)
    rw [if_neg apart]
    dsimp only
    rw [List.drop_zero, List.findIdx?_cons, beq_eq_false_iff_ne.mpr slash]
    simp only [Bool.false_eq_true, if_false]
    cases List.findIdx? (· == '/') cs with
    | none => exact Nat.succ_pos _
    | some i => exact Nat.lt_add_left 0 (Nat.succ_pos i)

theorem turn_shorter (left : input ≠ []) (out : Text) :
    (turn input out).1.length < input.length := by
  have occupied := List.length_pos_of_ne_nil left
  have dropped : ∀ n, 0 < n → (input.drop n).length < input.length := by
    intro n some_
    rw [List.length_drop]
    omega
  unfold turn
  split
  next rest _ whole =>
    rw [stripPrefix_eq_some.mp whole, List.length_append]
    exact Nat.lt_add_of_pos_left (Nat.succ_pos 2)
  next rest _ whole =>
    rw [stripPrefix_eq_some.mp whole, List.length_append]
    exact Nat.lt_add_of_pos_left (Nat.succ_pos 1)
  split
  · exact dropped 2 (by decide)
  split
  next same =>
    rw [same]
    exact Nat.one_lt_two
  split
  · exact dropped 3 (by decide)
  split
  next same =>
    rw [same]
    exact Nat.lt_succ_of_lt Nat.one_lt_two
  split
  · exact occupied
  · exact dropped _ (segmentEnd_pos left)

/-- `remove_dot_segments` from within the loop. -/
def removeFrom (input out : Text) : Text :=
  if _ : input = [] then out else removeFrom (turn input out).1 (turn input out).2
termination_by input.length
decreasing_by exact turn_shorter ‹_› out

def removeDotSegments (path : Text) : Text := removeFrom path []

/-! ## The fold over a stack -/

def pushSegment (stack : List Text) (seg : Text) : List Text :=
  if seg = ['.'] then stack else if seg = ['.', '.'] then stack.dropLast else stack ++ [seg]

def IsDots (seg : Text) : Prop := seg = ['.'] ∨ seg = ['.', '.']

instance (seg : Text) : Decidable (IsDots seg) := inferInstanceAs (Decidable (_ ∨ _))

/-- The segments that stay; dots at the end leave the empty segment behind the last slash. -/
def foldedFrom (stack segs : List Text) : List Text :=
  let stack' := segs.foldl pushSegment stack
  if ∃ seg ∈ segs.getLast?, IsDots seg then stack' ++ [[]] else stack'

/-- A path that begins with a slash, split, folded and rejoined. -/
def resolved (path : Text) : Text :=
  ['/'].intercalate ([] :: foldedFrom [] (path.splitOn '/').tail)

theorem pushSegment_other (stack : List Text) (other : ¬ IsDots seg) :
    pushSegment stack seg = stack ++ [seg] := by
  obtain ⟨dot, up⟩ := not_or.mp other
  rw [pushSegment, if_neg dot, if_neg up]

theorem foldedFrom_cons (stack : List Text) (seg : Text) (occupied : rest ≠ []) :
    foldedFrom stack (seg :: rest) = foldedFrom (pushSegment stack seg) rest := by
  rw [foldedFrom, foldedFrom, List.foldl_cons, List.getLast?_cons_of_ne_nil occupied]

theorem foldedFrom_dots (stack : List Text) (dots : IsDots seg) :
    foldedFrom stack [seg] = foldedFrom (pushSegment stack seg) [[]] := by
  have after : ¬ ∃ seg ∈ [([] : Text)].getLast?, IsDots seg := by decide
  rw [foldedFrom, foldedFrom, if_pos ⟨seg, rfl, dots⟩, if_neg after]
  rfl

theorem foldedFrom_other (stack : List Text) (other : ¬ IsDots seg) :
    foldedFrom stack [seg] = stack ++ [seg] := by
  have nothing : ¬ ∃ last ∈ [seg].getLast?, IsDots last := by
    rintro ⟨last, there, dots⟩
    cases there
    exact other dots
  rw [foldedFrom, if_neg nothing]
  exact pushSegment_other stack other

/-! ## The turns on the segments -/

theorem popSegment_led (clean : ∀ seg ∈ stack, '/' ∉ seg) :
    popSegment (led '/' stack) = led '/' stack.dropLast := by
  rcases List.eq_nil_or_concat stack with rfl | ⟨before, last, rfl⟩
  · rfl
  · rw [List.concat_eq_append] at clean ⊢
    have free : '/' ∉ last := clean last (List.mem_append_right _ (List.mem_singleton_self last))
    have cut : rsplitOnce '/' (led '/' (before ++ [last])) = some (led '/' before, last) := by
      apply rsplitOnce_eq_some.mpr
      rw [led_append, led_cons, led_nil, List.append_nil]
      exact ⟨free, rfl⟩
    rw [popSegment, cut, List.dropLast_concat]

theorem segmentEnd_led (clean : '/' ∉ seg) (rest : List Text) :
    segmentEnd (led '/' (seg :: rest)) = seg.length + 1 := by
  have free : seg.findIdx? (· == '/') = none := by
    apply List.findIdx?_eq_none_iff.mpr
    intro c member
    exact beq_eq_false_iff_ne.mpr fun same => clean (same ▸ member)
  unfold segmentEnd
  rw [led_cons, if_pos List.head?_cons]
  dsimp only
  rw [List.drop_succ_cons, List.drop_zero, List.findIdx?_append, free]
  cases rest with
  | nil => simp
  | cons next rest =>
      rw [led_cons, List.findIdx?_cons]
      simp only [beq_self_eq_true, if_true, Option.map_some, Option.none_or, Nat.zero_add]
      exact Nat.add_comm 1 seg.length

/-- What stands before a slash or before the end is the first segment. -/
theorem first_segment {t : Text} (clean : '/' ∉ seg) (clean' : '/' ∉ t)
    (same : seg ++ led '/' rest = t ++ s) (ends : s = [] ∨ ∃ more, s = '/' :: more) : seg = t := by
  obtain ⟨rest', led'⟩ : ∃ rest', s = led '/' rest' := by
    rcases ends with rfl | ⟨more, rfl⟩
    · exact ⟨[], rfl⟩
    · exact ⟨_, (led_splitOn '/' more).symm⟩
  rw [led'] at same
  exact (eq_of_led clean clean' same).1

theorem turn_dot (rest : List Text) (out : Text) :
    turn (led '/' (['.'] :: rest)) out = (led '/' (if rest = [] then [[]] else rest), out) := by
  cases rest with
  | nil => rfl
  | cons next rest => rfl

theorem turn_up (rest : List Text) (clean : ∀ seg ∈ stack, '/' ∉ seg) :
    turn (led '/' (['.', '.'] :: rest)) (led '/' stack) =
      (led '/' (if rest = [] then [[]] else rest), led '/' stack.dropLast) := by
  rw [← popSegment_led clean]
  cases rest with
  | nil => rfl
  | cons next rest => rfl

theorem turn_segment (clean : '/' ∉ seg) (other : ¬ IsDots seg) (rest stack : List Text) :
    turn (led '/' (seg :: rest)) (led '/' stack) = (led '/' rest, led '/' (stack ++ [seg])) := by
  obtain ⟨dot, up⟩ := not_or.mp other
  have started : ∀ t : Text, '/' ∉ t → seg ≠ t →
      ¬ ('/' :: (t ++ ['/'])).isPrefixOf (led '/' (seg :: rest)) = true := by
    intro t clean' apart front
    obtain ⟨more, same⟩ := List.isPrefixOf_iff_prefix.mp front
    rw [led_cons, List.cons_append, List.append_assoc] at same
    exact apart (first_segment clean clean' (List.cons.inj same).2.symm (.inr ⟨more, rfl⟩))
  have whole : ∀ t : Text, '/' ∉ t → seg ≠ t → led '/' (seg :: rest) ≠ '/' :: t := by
    intro t clean' apart same
    rw [led_cons, ← List.append_nil t] at same
    exact apart (first_segment clean clean' (List.cons.inj same).2 (.inl rfl))
  have bare : ¬ (led '/' (seg :: rest) = ['.'] ∨ led '/' (seg :: rest) = ['.', '.']) := by
    rw [led_cons]
    rintro (same | same) <;> cases same
  have unled : ∀ start, stripPrefix ('.' :: start) (led '/' (seg :: rest)) = none := fun start => rfl
  have moved : (led '/' (seg :: rest)).take (seg.length + 1) = '/' :: seg := by
    rw [led_cons, List.take_succ_cons, List.take_left]
  have left : (led '/' (seg :: rest)).drop (seg.length + 1) = led '/' rest := by
    rw [led_cons, List.drop_succ_cons, List.drop_left]
  have not_dot : ¬ ['/', '.', '/'].isPrefixOf (led '/' (seg :: rest)) = true :=
    started ['.'] (by decide) dot
  have not_up : ¬ ['/', '.', '.', '/'].isPrefixOf (led '/' (seg :: rest)) = true :=
    started ['.', '.'] (by decide) up
  unfold turn
  rw [unled, unled]
  dsimp only
  rw [if_neg not_dot, if_neg (whole ['.'] (by decide) dot), if_neg not_up,
    if_neg (whole ['.', '.'] (by decide) up), if_neg bare, segmentEnd_led clean, moved, left,
    led_append, led_cons, led_nil, List.append_nil]

theorem turn_dots (dots : IsDots seg) (rest : List Text) (clean : ∀ seg ∈ stack, '/' ∉ seg) :
    turn (led '/' (seg :: rest)) (led '/' stack) =
      (led '/' (if rest = [] then [[]] else rest), led '/' (pushSegment stack seg)) := by
  rcases dots with rfl | rfl
  · exact turn_dot rest (led '/' stack)
  · exact turn_up rest clean

/-! ## The loop on the segments -/

theorem removeFrom_nil (out : Text) : removeFrom [] out = out := by
  rw [removeFrom, dif_pos rfl]

theorem removeFrom_turn (left : input ≠ []) (out : Text) :
    removeFrom input out = removeFrom (turn input out).1 (turn input out).2 := by
  rw [removeFrom, dif_neg left]

theorem removeFrom_last (clean : '/' ∉ seg) (other : ¬ IsDots seg) (stack : List Text) :
    removeFrom (led '/' [seg]) (led '/' stack) = led '/' (stack ++ [seg]) := by
  rw [removeFrom_turn (led_ne_nil _ _ _), turn_segment clean other]
  exact removeFrom_nil _

theorem pushSegment_clean (stacked : ∀ seg ∈ stack, '/' ∉ seg) (clean : '/' ∉ seg) :
    ∀ seg' ∈ pushSegment stack seg, '/' ∉ seg' := by
  unfold pushSegment
  intro seg' member
  split at member
  · exact stacked seg' member
  split at member
  · exact stacked seg' (List.dropLast_subset stack member)
  · rcases List.mem_append.mp member with old | new
    · exact stacked seg' old
    · rw [List.mem_singleton.mp new]
      exact clean

/-- The loop folds the segments, whatever it has put out so far. -/
theorem removeFrom_led (occupied : segs ≠ []) (clean : ∀ seg ∈ segs, '/' ∉ seg)
    (stacked : ∀ seg ∈ stack, '/' ∉ seg) :
    removeFrom (led '/' segs) (led '/' stack) = led '/' (foldedFrom stack segs) := by
  induction segs generalizing stack with
  | nil => exact absurd rfl occupied
  | cons seg rest ih =>
      have first : '/' ∉ seg := clean seg List.mem_cons_self
      have later : ∀ seg ∈ rest, '/' ∉ seg := fun seg member =>
        clean seg (List.mem_cons_of_mem _ member)
      have pushed := pushSegment_clean stacked first
      by_cases dots : IsDots seg
      · rw [removeFrom_turn (led_ne_nil _ _ _), turn_dots dots rest stacked]
        dsimp only
        by_cases last : rest = []
        · -- the slash that is left of the dots ends the path
          rw [if_pos last, last, removeFrom_last List.not_mem_nil (by decide),
            foldedFrom_dots stack dots, foldedFrom_other _ (by decide)]
        · rw [if_neg last, ih last later pushed, foldedFrom_cons stack seg last]
      · by_cases last : rest = []
        · rw [last, removeFrom_last first dots, foldedFrom_other stack dots]
        · rw [removeFrom_turn (led_ne_nil _ _ _), turn_segment first dots,
            foldedFrom_cons stack seg last, pushSegment_other stack dots]
          rw [pushSegment_other stack dots] at pushed
          exact ih last later pushed

/-! ## What the fold leaves -/

/-- The empty segment and segments that are no dots are all there is on the stack. -/
theorem mem_foldedFrom {P : Text → Prop} (empty : P []) (stacked : ∀ seg ∈ stack, P seg)
    (others : ∀ seg ∈ segs, ¬ IsDots seg → P seg) : ∀ seg ∈ foldedFrom stack segs, P seg := by
  have folded : ∀ seg ∈ segs.foldl pushSegment stack, P seg := by
    induction segs generalizing stack with
    | nil => exact stacked
    | cons first rest ih =>
        apply ih
        · intro seg member
          by_cases dots : IsDots first
          · rcases dots with rfl | rfl
            · exact stacked seg member
            · exact stacked seg (List.dropLast_subset stack member)
          · rw [pushSegment_other stack dots] at member
            rcases List.mem_append.mp member with old | new
            · exact stacked seg old
            · rw [List.mem_singleton.mp new]
              exact others first List.mem_cons_self dots
        · intro seg member
          exact others seg (List.mem_cons_of_mem _ member)
  unfold foldedFrom
  dsimp only
  split
  · intro seg member
    rcases List.mem_append.mp member with old | new
    · exact folded seg old
    · rw [List.mem_singleton.mp new]
      exact empty
  · exact folded

theorem foldedFrom_ne_nil (stack : List Text) (occupied : segs ≠ []) :
    foldedFrom stack segs ≠ [] := by
  induction segs generalizing stack with
  | nil => exact absurd rfl occupied
  | cons seg rest ih =>
      by_cases last : rest = []
      · subst last
        by_cases dots : IsDots seg
        · rw [foldedFrom_dots stack dots, foldedFrom_other _ (by decide)]
          exact List.append_ne_nil_of_right_ne_nil _ (List.cons_ne_nil _ _)
        · rw [foldedFrom_other stack dots]
          exact List.append_ne_nil_of_right_ne_nil _ (List.cons_ne_nil _ _)
      · rw [foldedFrom_cons stack seg last]
        exact ih _ last

/-- Segments without dots stay as they are. -/
theorem foldedFrom_plain (stack : List Text) (occupied : segs ≠ [])
    (plain : ∀ seg ∈ segs, ¬ IsDots seg) : foldedFrom stack segs = stack ++ segs := by
  induction segs generalizing stack with
  | nil => exact absurd rfl occupied
  | cons seg rest ih =>
      have other := plain seg List.mem_cons_self
      by_cases last : rest = []
      · rw [last, foldedFrom_other stack other]
      · rw [foldedFrom_cons stack seg last, pushSegment_other stack other,
          ih _ last fun seg member => plain seg (List.mem_cons_of_mem _ member), List.append_assoc]
        rfl

/-! ## The result -/

theorem removeFrom_iterate (input out : Text) :
    ∃ n ≤ input.length, (fun s => turn s.1 s.2)^[n] (input, out) = ([], removeFrom input out) := by
  induction input, out using removeFrom.induct with
  | case1 out => exact ⟨0, Nat.le_refl 0, by rw [removeFrom_nil]; rfl⟩
  | case2 input out left ih =>
      obtain ⟨n, bound, reached⟩ := ih
      refine ⟨n + 1, Nat.succ_le_of_lt (Nat.lt_of_le_of_lt bound (turn_shorter left out)), ?_⟩
      rw [Function.iterate_succ_apply, removeFrom_turn left]
      exact reached

theorem removeDotSegments_led (occupied : segs ≠ []) (clean : ∀ seg ∈ segs, '/' ∉ seg) :
    removeDotSegments (led '/' segs) = led '/' (foldedFrom [] segs) :=
  @removeFrom_led [] segs occupied clean nofun

theorem removeDotSegments_cons (s : Text) :
    removeDotSegments ('/' :: s) = led '/' (foldedFrom [] (s.splitOn '/')) := by
  have clean : ∀ seg ∈ s.splitOn '/', '/' ∉ seg := fun seg member => not_mem_of_splitOn member
  rw [← led_splitOn, removeDotSegments_led (List.splitOn_ne_nil '/' s) clean]

theorem removeDotSegments_rooted {path : Text} (from_root : path.head? = some '/') :
    removeDotSegments path = resolved path := by
  obtain ⟨s, rfl⟩ := List.head?_eq_some_iff.mp from_root
  rw [removeDotSegments_cons, resolved, List.splitOn_cons_eq_if_modifyHead,
    if_pos (beq_self_eq_true '/'), intercalate_led]
  rfl

/-- A path from the root is resolved within as many turns as it has characters, to the fold of its
segments; that begins with a slash, has no dots for a segment and is resolved already. -/
theorem removeDotSegments_resolves (path : Text) (from_root : path.head? = some '/') :
    (∃ n ≤ path.length,
      (fun s => turn s.1 s.2)^[n] (path, []) = ([], removeDotSegments path)) ∧
    removeDotSegments path = resolved path ∧
    (removeDotSegments path).head? = some '/' ∧
    (∀ seg ∈ (removeDotSegments path).splitOn '/', ¬ IsDots seg) ∧
    removeDotSegments (removeDotSegments path) = removeDotSegments path := by
  obtain ⟨s, rfl⟩ := List.head?_eq_some_iff.mp from_root
  let folded := foldedFrom [] (s.splitOn '/')
  have clean : ∀ seg ∈ s.splitOn '/', '/' ∉ seg := fun seg member => not_mem_of_splitOn member
  have occupied : s.splitOn '/' ≠ [] := List.splitOn_ne_nil '/' s
  have result : removeDotSegments ('/' :: s) = led '/' folded := removeDotSegments_cons s
  have folded_clean : ∀ seg ∈ folded, '/' ∉ seg :=
    mem_foldedFrom List.not_mem_nil nofun fun seg member _ => clean seg member
  have folded_plain : ∀ seg ∈ folded, ¬ IsDots seg :=
    mem_foldedFrom (by decide) nofun fun seg _ other => other
  have folded_occupied : folded ≠ [] := foldedFrom_ne_nil [] occupied
  refine ⟨removeFrom_iterate _ [], removeDotSegments_rooted from_root, ?_, ?_, ?_⟩
  · rw [result]
    obtain ⟨seg, rest, split⟩ := List.exists_cons_of_ne_nil folded_occupied
    rw [split]
    rfl
  · rw [result, splitOn_led folded_clean]
    intro seg member
    rcases List.mem_cons.mp member with rfl | member
    · decide
    · exact folded_plain seg member
  · rw [result, removeDotSegments_led folded_occupied folded_clean,
      foldedFrom_plain [] folded_occupied folded_plain]
    rfl

theorem removeDotSegments_resolves_climb :
    removeDotSegments "/a/./b//../../../c/..".toList = "/".toList ∧
      removeDotSegments "/".toList = "/".toList := by
  have path := removeDotSegments_resolves "/a/./b//../../../c/..".toList (by decide)
  have same : removeDotSegments "/a/./b//../../../c/..".toList = "/".toList :=
    path.2.1.trans (by decide)
  have again := path.2.2.2.2
  rw [same] at again
  exact ⟨same, again⟩

end HClient.Sansio
