import HClient.Core.Text

/-!
# Cuts of a text

What the searches for a separator find: the part that is free of it and the rest. And what a
reader of an unsigned number reads.
-/
namespace HClient.Text

variable {sep : Char} {s before after : Text}

theorem splitOnce_append (clean : sep ∉ before) (after : Text) :
    splitOnce sep (before ++ sep :: after) = some (before, after) := by
  induction before with
  | nil => exact if_pos rfl
  | cons c before ih =>
      obtain ⟨apart, clean⟩ := not_or.mp (mt List.mem_cons.mpr clean)
      rw [List.cons_append, splitOnce, if_neg (Ne.symm apart), ih clean]
      rfl

theorem splitOnce_none (clean : sep ∉ s) : splitOnce sep s = none := by
  induction s with
  | nil => rfl
  | cons c s ih =>
      obtain ⟨apart, clean⟩ := not_or.mp (mt List.mem_cons.mpr clean)
      rw [splitOnce, if_neg (Ne.symm apart), ih clean]
      rfl

theorem splitOnce_eq_some :
    splitOnce sep s = some (before, after) ↔ sep ∉ before ∧ s = before ++ sep :: after := by
  constructor
  · intro cut
    by_cases there : sep ∈ s
    · obtain ⟨before', after', rfl, clean⟩ := List.eq_append_cons_of_mem there
      rw [splitOnce_append clean] at cut
      cases cut
      exact ⟨clean, rfl⟩
    · rw [splitOnce_none there] at cut
      cases cut
  · rintro ⟨clean, rfl⟩
    exact splitOnce_append clean after

theorem splitOnce_eq_none : splitOnce sep s = none ↔ sep ∉ s := by
  constructor
  · intro uncut there
    obtain ⟨before, after, rfl, clean⟩ := List.eq_append_cons_of_mem there
    rw [splitOnce_append clean] at uncut
    cases uncut
  · exact splitOnce_none

theorem rsplitOnce_eq_some :
    rsplitOnce sep s = some (before, after) ↔ sep ∉ after ∧ s = before ++ sep :: after := by
  unfold rsplitOnce
  rw [Option.map_eq_some_iff]
  constructor
  · rintro ⟨⟨after', before'⟩, cut, same⟩
    cases same
    obtain ⟨clean, whole⟩ := splitOnce_eq_some.mp cut
    refine ⟨mt List.mem_reverse.mp clean, ?_⟩
    rw [← List.reverse_reverse s, whole, List.reverse_append, List.reverse_cons, List.append_assoc]
    rfl
  · rintro ⟨clean, rfl⟩
    refine ⟨(after.reverse, before.reverse), ?_, ?_⟩
    · apply splitOnce_eq_some.mpr
      refine ⟨mt List.mem_reverse.mp clean, ?_⟩
      rw [List.reverse_append, List.reverse_cons, List.append_assoc]
      rfl
    · dsimp only
      rw [List.reverse_reverse, List.reverse_reverse]

theorem rsplitOnce_eq_none : rsplitOnce sep s = none ↔ sep ∉ s := by
  rw [rsplitOnce, Option.map_eq_none_iff, splitOnce_eq_none, List.mem_reverse]

/-- A string is found at its first character, where that occurs nowhere before it. -/
theorem splitOnceAt_append {c : Char} {rest : Text} (clean : c ∉ before) (after : Text) :
    splitOnceAt (c :: rest) (before ++ (c :: rest) ++ after) = some (before, after) := by
  induction before with
  | nil =>
      have front : (c :: rest).isPrefixOf (c :: rest ++ after) = true :=
        List.isPrefixOf_iff_prefix.mpr (List.prefix_append _ _)
      rw [List.nil_append, List.cons_append, splitOnceAt, ← List.cons_append, if_pos front,
        List.drop_left]
  | cons d before ih =>
      obtain ⟨apart, clean⟩ := not_or.mp (mt List.mem_cons.mpr clean)
      have behind : ¬ (c :: rest).isPrefixOf (d :: (before ++ (c :: rest) ++ after)) = true := by
        intro front
        obtain ⟨more, same⟩ := List.isPrefixOf_iff_prefix.mp front
        injection same with same
        exact apart same
      rw [List.cons_append, List.cons_append, splitOnceAt, if_neg behind, ih clean]
      rfl

/-! ## Numbers -/

def numberOf (digits : Text) : Nat :=
  digits.foldl (fun acc c => acc * 10 + (c.toNat - '0'.toNat)) 0

theorem parseUnsigned_digits {bound : Nat} {digits : Text} (occupied : digits ≠ [])
    (all : digits.all isAsciiDigit = true) :
    parseUnsigned bound digits = if bound ≤ numberOf digits then none else some (numberOf digits) := by
  unfold parseUnsigned
  split
  next ds =>
    have digit := List.all_eq_true.mp all '+' List.mem_cons_self
    cases digit
  · simp only [occupied, all, not_true, false_or]
    rfl

end HClient.Text

/-!
## Slices

What `str::find` and `str::rfind` at a set of characters cut a text into: the slice before the
first of them and the one that begins there, the slice through the last of them and the one behind.
-/
namespace HClient
namespace Text

/-- The slice before the first of these characters, which is the whole text where there is none. -/
def upTo (stops : List Char) (s : Text) : Text := s.takeWhile fun c => !stops.contains c

/-- The slice that begins at the first of these characters. -/
def onward (stops : List Char) (s : Text) : Text := s.dropWhile fun c => !stops.contains c

/-- The slice that ends with the last of these characters. -/
def through (stops : List Char) (s : Text) : Text := s.rdropWhile fun c => !stops.contains c

/-- The slice behind the last of these characters, which is the whole text where there is none. -/
def behind (stops : List Char) (s : Text) : Text := s.rtakeWhile fun c => !stops.contains c

variable {stops : List Char} {s t start : Text} {c : Char}

theorem stripPrefix_eq_some : stripPrefix start s = some t ↔ s = start ++ t := by
  rw [stripPrefix]
  constructor
  · intro found
    split at found
    next here =>
      obtain ⟨rest, rfl⟩ := List.isPrefixOf_iff_prefix.mp here
      rw [List.drop_left, Option.some.injEq] at found
      rw [found]
    · cases found
  · rintro rfl
    rw [if_pos (List.isPrefixOf_iff_prefix.mpr (List.prefix_append start t)), List.drop_left]

@[simp] theorem upTo_append_onward (stops : List Char) (s : Text) :
    upTo stops s ++ onward stops s = s :=
  List.takeWhile_append_dropWhile

@[simp] theorem through_append_behind (stops : List Char) (s : Text) :
    through stops s ++ behind stops s = s :=
  List.rdropWhile_append_rtakeWhile

theorem disjoint_upTo (stops : List Char) (s : Text) : stops.Disjoint (upTo stops s) := by
  intro c stop member
  have kept := List.mem_takeWhile_imp member
  rw [List.contains_iff_mem.mpr stop] at kept
  cases kept

theorem disjoint_behind (stops : List Char) (s : Text) : stops.Disjoint (behind stops s) := by
  intro c stop member
  have kept := List.mem_rtakeWhile_imp member
  rw [List.contains_iff_mem.mpr stop] at kept
  cases kept

/-- It begins with one of the characters, if it is anything. -/
theorem onward_cases (stops : List Char) (s : Text) :
    onward stops s = [] ∨ ∃ c ∈ stops, ∃ rest, onward stops s = c :: rest := by
  cases found : onward stops s with
  | nil => exact .inl rfl
  | cons c rest =>
      have stop := List.head?_dropWhile_not (fun c => !stops.contains c) s
      rw [show s.dropWhile _ = c :: rest from found, List.head?_cons] at stop
      exact .inr ⟨c, by simpa using stop, rest, rfl⟩

/-- It ends with one of the characters, if it is anything. -/
theorem through_cases (stops : List Char) (s : Text) :
    through stops s = [] ∨ ∃ c ∈ stops, ∃ before, through stops s = before ++ [c] := by
  rcases List.eq_nil_or_concat (through stops s) with none | ⟨before, c, found⟩
  · exact .inl none
  · have nonempty : through stops s ≠ [] := by simp [found]
    have stop : ¬ (!stops.contains ((through stops s).getLast nonempty)) = true :=
      List.rdropWhile_last_not _ s nonempty
    simp only [found, List.concat_eq_append, List.getLast_concat] at stop
    exact .inr ⟨c, by simpa using stop, before, by rw [found, List.concat_eq_append]⟩

theorem upTo_onward (stops : List Char) (s : Text) : upTo stops (onward stops s) = [] := by
  rcases onward_cases stops s with none | ⟨c, stop, rest, found⟩
  · rw [none]
    rfl
  · rw [found, upTo, List.takeWhile_cons_of_neg (by simpa using stop)]

/-! ## A text that has none of them in front or behind -/

theorem upTo_append (free : stops.Disjoint s) (t : Text) :
    upTo stops (s ++ t) = s ++ upTo stops t := by
  refine List.takeWhile_append_of_pos fun c member => ?_
  simpa using fun stop => free stop member

theorem onward_append (free : stops.Disjoint s) (t : Text) :
    onward stops (s ++ t) = onward stops t := by
  refine List.dropWhile_append_of_pos fun c member => ?_
  simpa using fun stop => free stop member

@[simp] theorem upTo_nil (stops : List Char) : upTo stops [] = [] := rfl

@[simp] theorem onward_nil (stops : List Char) : onward stops [] = [] := rfl

theorem upTo_cons (stop : c ∈ stops) (t : Text) : upTo stops (c :: t) = [] := by
  simp [upTo, stop]

theorem onward_cons (stop : c ∈ stops) (t : Text) : onward stops (c :: t) = c :: t := by
  simp [onward, stop]

theorem upTo_of_disjoint (free : stops.Disjoint s) : upTo stops s = s := by
  simpa using upTo_append free []

theorem onward_of_disjoint (free : stops.Disjoint s) : onward stops s = [] := by
  simpa using onward_append free []

theorem upTo_stop (free : stops.Disjoint s) (stop : c ∈ stops) (t : Text) :
    upTo stops (s ++ c :: t) = s := by
  rw [upTo_append free, upTo_cons stop, List.append_nil]

theorem onward_stop (free : stops.Disjoint s) (stop : c ∈ stops) (t : Text) :
    onward stops (s ++ c :: t) = c :: t := by
  rw [onward_append free, onward_cons stop]

theorem behind_append (free : stops.Disjoint t) (s : Text) :
    behind stops (s ++ t) = behind stops s ++ t := by
  have kept : ∀ c ∈ t.reverse, (!stops.contains c) = true := fun c member => by
    simpa using fun stop => free stop (List.mem_reverse.mp member)
  rw [behind, behind, List.rtakeWhile, List.rtakeWhile, List.reverse_append,
    List.takeWhile_append_of_pos kept, List.reverse_append, List.reverse_reverse]

theorem through_append (free : stops.Disjoint t) (s : Text) :
    through stops (s ++ t) = through stops s := by
  have kept : ∀ c ∈ t.reverse, (!stops.contains c) = true := fun c member => by
    simpa using fun stop => free stop (List.mem_reverse.mp member)
  rw [through, through, List.rdropWhile, List.rdropWhile, List.reverse_append,
    List.dropWhile_append_of_pos kept]

theorem behind_stop (stop : c ∈ stops) (free : stops.Disjoint t) (s : Text) :
    behind stops (s ++ c :: t) = t := by
  rw [List.append_cons, behind_append free, behind, List.rtakeWhile_concat_neg _ _ _ (by simpa)]
  rfl

theorem through_stop (stop : c ∈ stops) (free : stops.Disjoint t) (s : Text) :
    through stops (s ++ c :: t) = s ++ [c] := by
  rw [List.append_cons, through_append free, through, List.rdropWhile_concat_neg _ _ _ (by simpa)]

theorem behind_of_disjoint (free : stops.Disjoint s) : behind stops s = s := by
  simpa [behind] using behind_append free []

theorem through_of_disjoint (free : stops.Disjoint s) : through stops s = [] := by
  simpa [through] using through_append free []

/-- The first of the characters stands no later than this one. -/
theorem upTo_prefix (stop : c ∈ stops) (s t : Text) : upTo stops (s ++ c :: t) <+: s := by
  rw [upTo, List.takeWhile_append]
  split
  · rw [show (c :: t).takeWhile _ = [] from upTo_cons stop t, List.append_nil]
  · exact List.takeWhile_prefix _

theorem upTo_through (member : c ∈ s) : upTo [c] s ++ [c] <+: through [c] s := by
  have first : upTo [c] s ++ [c] <+: s := by
    rcases onward_cases [c] s with none | ⟨d, stop, rest, found⟩
    · have free := disjoint_upTo [c] s
      rw [← upTo_append_onward [c] s, none, List.append_nil] at member
      exact (free (List.mem_singleton_self c) member).elim
    · obtain rfl := List.mem_singleton.mp stop
      conv_rhs => rw [← upTo_append_onward [d] s, found, List.append_cons]
      exact List.prefix_append _ _
  have last : through [c] s <+: s := List.rdropWhile_prefix _ s
  rcases List.prefix_or_prefix_of_prefix first last with inside | outside
  · exact inside
  rcases List.prefix_concat_iff.mp outside with same | before
  · rw [same]
  -- what ends before the first of them has none of them
  rcases through_cases [c] s with none | ⟨d, stop, init, found⟩
  · have free := disjoint_behind [c] s
    rw [← through_append_behind [c] s, none, List.nil_append] at member
    exact (free (List.mem_singleton_self c) member).elim
  · obtain rfl := List.mem_singleton.mp stop
    have inside : d ∈ upTo [d] s := before.subset (by rw [found]; simp)
    exact (disjoint_upTo [d] s (List.mem_singleton_self d) inside).elim

end Text
end HClient
