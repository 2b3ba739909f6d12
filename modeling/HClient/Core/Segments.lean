import HClient.Core.Words

/-!
# Segments

A list cut at a separator, each segment with the separator in front of it: the list is its
segments, and its segments are found again where none of them holds the separator.
-/
namespace HClient.Segments

variable {α : Type} {sep : α} {seg s t : List α} {rest segs : List (List α)}

/-- The segments one behind the other, the separator in front of each. -/
def led (sep : α) (segs : List (List α)) : List α := segs.flatMap (sep :: ·)

@[simp] theorem led_nil (sep : α) : led sep [] = [] := rfl

@[simp] theorem led_cons (sep : α) (seg : List α) (rest : List (List α)) :
    led sep (seg :: rest) = sep :: (seg ++ led sep rest) := rfl

@[simp] theorem led_append (sep : α) (segs rest : List (List α)) :
    led sep (segs ++ rest) = led sep segs ++ led sep rest :=
  List.flatMap_append

theorem led_ne_nil (sep : α) (seg : List α) (rest : List (List α)) : led sep (seg :: rest) ≠ [] :=
  List.cons_ne_nil _ _

theorem head_led (sep : α) (segs : List (List α)) : ∀ a ∈ (led sep segs).head?, a = sep := by
  intro a there
  cases segs with
  | nil => cases there
  | cons seg rest =>
      cases there
      rfl

theorem intercalate_cons (sep : α) (seg : List α) (rest : List (List α)) :
    [sep].intercalate (seg :: rest) = seg ++ led sep rest := by
  induction rest generalizing seg with
  | nil => rw [List.intercalate_singleton, led_nil, List.append_nil]
  | cons next rest ih =>
      rw [List.intercalate_cons_cons, ih, led_cons]
      simp only [List.append_assoc, List.cons_append, List.nil_append]

theorem intercalate_led (sep : α) (segs : List (List α)) :
    [sep].intercalate ([] :: segs) = led sep segs := by
  rw [intercalate_cons, List.nil_append]

theorem false_of_splitOnP {p : α → Bool} (member : seg ∈ s.splitOnP p) : ∀ a ∈ seg, p a = false := by
  induction s generalizing seg with
  | nil =>
      rw [List.splitOnP_nil, List.mem_singleton] at member
      rw [member]
      exact nofun
  | cons c s ih =>
      rw [List.splitOnP_cons_eq_if_modifyHead] at member
      split at member
      · rcases List.mem_cons.mp member with rfl | member
        · exact nofun
        · exact ih member
      next other =>
        obtain ⟨first, more, split⟩ := List.exists_cons_of_ne_nil (List.splitOnP_ne_nil p s)
        rw [split, List.modifyHead_cons, List.mem_cons] at member
        rcases member with rfl | member
        · intro a there
          rcases List.mem_cons.mp there with rfl | there
          · exact eq_false_of_ne_true other
          · exact ih (split ▸ List.mem_cons_self) a there
        · exact ih (split ▸ List.mem_cons_of_mem _ member)

/-- What keeps the separators keeps the number of the segments. -/
theorem length_splitOnP_map {p : α → Bool} {f : α → α} (same : ∀ a, p (f a) = p a) (s : List α) :
    ((s.map f).splitOnP p).length = (s.splitOnP p).length := by
  induction s with
  | nil => rfl
  | cons c s ih =>
      rw [List.map_cons, List.splitOnP_cons_eq_if_modifyHead, List.splitOnP_cons_eq_if_modifyHead,
        same c]
      split
      · rw [List.length_cons, List.length_cons, ih]
      · rw [List.length_modifyHead, List.length_modifyHead, ih]

variable [BEq α] [LawfulBEq α]

theorem led_splitOn (sep : α) (s : List α) : led sep (s.splitOn sep) = sep :: s := by
  have whole : [sep].intercalate ((sep :: s).splitOn sep) = sep :: s := List.intercalate_splitOn sep
  rw [List.splitOn_cons_eq_if_modifyHead, if_pos (beq_self_eq_true sep), intercalate_led] at whole
  exact whole

theorem not_mem_of_splitOn (member : seg ∈ s.splitOn sep) : sep ∉ seg := by
  rw [List.splitOn_eq_splitOnP] at member
  intro there
  have other := false_of_splitOnP member sep there
  rw [beq_self_eq_true] at other
  cases other

theorem splitOn_led (clean : ∀ seg ∈ segs, sep ∉ seg) :
    (led sep segs).splitOn sep = [] :: segs := by
  rw [← intercalate_led]
  refine List.splitOn_intercalate sep (fun seg member => ?_) (List.cons_ne_nil _ _)
  rcases List.mem_cons.mp member with rfl | member
  · exact List.not_mem_nil
  · exact clean seg member

/-! ## The first segment -/

theorem takeWhile_led (clean : sep ∉ seg) (rest : List (List α)) :
    (seg ++ led sep rest).takeWhile (· != sep) = seg := by
  apply Runs.takeWhile_run
  · intro a member
    exact bne_iff_ne.mpr fun same => clean (same ▸ member)
  · intro a first
    rw [head_led sep rest a first]
    exact bne_self_eq_false sep

/-- Two ways to read a first segment are one. -/
theorem eq_of_led (clean : sep ∉ seg) (clean' : sep ∉ t) {rest' : List (List α)}
    (same : seg ++ led sep rest = t ++ led sep rest') :
    seg = t ∧ led sep rest = led sep rest' := by
  have first := takeWhile_led clean rest
  rw [same, takeWhile_led clean'] at first
  subst first
  exact ⟨rfl, List.append_cancel_left same⟩

end HClient.Segments
