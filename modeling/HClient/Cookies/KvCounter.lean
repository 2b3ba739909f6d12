import HClient.Cookies.KvRuns

/-!
# The counter of the cookie store

The counter is advanced and taken back on paths that do not know whether the key was there. It
keeps above what is held exactly as long as no removal of an absent key finds it level with that,
and no put finds it at its last number.
-/
namespace HClient.Cookies.KvStore

open Effect Kv Shared

variable {capacity : Capacity} {s : Shared}

/-- The operation takes nothing from a counter at zero, and leaves it at no less than what the
namespace holds. -/
def Counts (capacity : Capacity) (s : Shared) (op : Op) : Prop :=
  (op.body capacity).Along (Call.handle ns) NotBelowZero s ∧
    count (apply capacity s op) ≤ (apply capacity s op).held

/-- A removal finds its key, or the counter above what is held; a put that stores something finds
the counter below its last number. -/
def Known (s : Shared) : Op → Prop
  | .put cookie _ => (encode cookie).isSome → s.held + 1 < usize
  | .remove key => keyFor key ∈ keys s ∨ count s < s.held
  | .touch _ _ | .clear => True

/-- What the counter's statements are made from. -/
structure Tallied (s : Shared) : Prop where
  kept : Kept s
  covers : count s ≤ s.held
  fits : s.held < usize

theorem tallied_new : Tallied Shared.new := ⟨kept_new, Nat.le_refl 0, by decide⟩

theorem evicted_length_le (kept : Kept s) (domain : Text) :
    (evicted capacity domain s).length ≤ count s := by
  have sub := found_sublist capacity domain s
  unfold evicted
  rw [kept.victims_length sub.subset]
  exact (Nat.sub_le _ _).trans sub.length_le

/-- What a put takes from the counter for those it evicts. -/
def charged (capacity : Capacity) (domain : Text) (s : Shared) : Nat :=
  if decide (capacity.maxCookies < wrappingSucc s.held) then (evicted capacity domain s).length
  else 0

theorem put_along {cookie : Cookie} {value : Bytes} (encoded : encode cookie = some value)
    (enough : charged capacity cookie.domain s ≤ wrappingSucc s.held) :
    (put capacity cookie).Along (Call.handle ns) NotBelowZero s := by
  have same : values { s with held := wrappingSucc s.held } = values s := rfl
  unfold put
  rw [encoded]
  simp only [Program.bind_eq, Program.perform_bind, Program.along_call]
  refine ⟨trivial, ?_⟩
  by_cases above : capacity.maxCookies < wrappingSucc s.held
  · have answer := scan_all { s with held := wrappingSucc s.held }
    simp only [Call.handle] at answer ⊢
    simp only [above, if_true, Program.along_call, Call.handle, answer, same]
    refine ⟨trivial, evict_along _ ?_⟩
    simpa [charged, evicted, boundOf, found, above] using enough
  · have answer := scan_eq (prefixFor cookie.domain) { s with held := wrappingSucc s.held }
    simp only [Call.handle] at answer ⊢
    simp only [above, if_false, Program.along_call, Call.handle, answer, same]
    exact ⟨trivial, evict_along _ (Nat.zero_le _)⟩

theorem put_held {cookie : Cookie} {fits : cookie.SeqFits} {value : Bytes}
    (encoded : encode cookie = some value)
    (enough : charged capacity cookie.domain s ≤ wrappingSucc s.held) :
    (apply capacity s (.put cookie fits)).held =
      wrappingSucc s.held - charged capacity cookie.domain s := by
  unfold apply Op.body
  rw [put_eq encoded]
  exact evict_held (s := { s with held := wrappingSucc s.held }) _ enough

/-- A put that stores counts exactly where the counter has a next number. -/
theorem counts_put (tallied : Tallied s) {cookie : Cookie} {fits : cookie.SeqFits} {value : Bytes}
    (encoded : encode cookie = some value) :
    Counts capacity s (.put cookie fits) ↔ s.held + 1 < usize := by
  have covers := tallied.covers
  have counted := @count_put s capacity tallied.kept _ fits _ encoded
  simp only at counted
  have gone := @evicted_length_le capacity s tallied.kept cookie.domain
  constructor
  · intro counts
    have below := tallied.fits
    by_contra last
    have wrapped : wrappingSucc s.held = 0 := if_pos (by omega)
    have enough : charged capacity cookie.domain s ≤ wrappingSucc s.held := by
      simp [charged, wrapped]
    have zero := @put_held capacity s _ fits _ encoded enough
    have some_held : 1 ≤ count (apply capacity s (.put cookie fits)) := by
      unfold count
      have after : values (apply capacity s (.put cookie fits)) = _ :=
        (put_shows tallied.kept encoded).values
      rw [after, List.length_cons]
      omega
    have covered := counts.2
    rw [zero, wrapped] at covered
    omega
  · intro below
    have next : wrappingSucc s.held = s.held + 1 := if_neg (by omega)
    have enough : charged capacity cookie.domain s ≤ wrappingSucc s.held := by
      rw [charged, next]
      split <;> omega
    refine ⟨put_along encoded enough, ?_⟩
    rw [put_held encoded enough, charged, next]
    split <;> omega

theorem counts_remove (tallied : Tallied s) (key : CookieKey) :
    Counts capacity s (.remove key) ↔ keyFor key ∈ keys s ∨ count s < s.held := by
  have covers := tallied.covers
  have counted := @count_remove s capacity tallied.kept key
  have held : (apply capacity s (.remove key)).held = wrappingPred s.held := rfl
  have along : (Op.body capacity (.remove key)).Along (Call.handle ns) NotBelowZero s ↔
      s.held ≠ 0 := by
    simp [Op.body, remove, Program.perform, NotBelowZero]
  unfold Counts
  rw [along, held]
  exact wrappingPred_covers counted covers

/-- From a state in which the counter covers what is held, an operation counts exactly where it
is known. -/
theorem counts_iff (tallied : Tallied s) (op : Op) : Counts capacity s op ↔ Known s op := by
  cases op with
  | put cookie fits =>
      cases encoded : encode cookie with
      | none =>
          have along : (Op.body capacity (.put cookie fits)).Along (Call.handle ns)
              NotBelowZero s := by
            simp [Op.body, put, encoded]
          have counted : count (apply capacity s (.put cookie fits)) ≤
              (apply capacity s (.put cookie fits)).held := by
            rw [put_unencoded encoded]
            exact tallied.covers
          simp only [Counts, Known, encoded, Option.isSome_none, Bool.false_eq_true, false_imp_iff,
            iff_true]
          exact ⟨along, counted⟩
      | some value =>
          simp only [Known, encoded, Option.isSome_some, true_imp_iff]
          exact counts_put tallied encoded
  | remove key => exact counts_remove tallied key
  | touch keys now =>
      simp only [Known, iff_true]
      refine ⟨?_, ?_⟩
      · unfold Op.body touch
        simp only
        split
        · trivial
        · exact ⟨trivial, runSteps_along _ _⟩
      · rw [count_touch tallied.kept, touch_held]
        exact tallied.covers
  | clear =>
      simp only [Known, iff_true]
      refine ⟨⟨trivial, trivial, trivial⟩, ?_⟩
      have nothing : values (apply capacity s .clear) = [] := clear_shows.values
      simp [count, nothing]

theorem Tallied.apply (tallied : Tallied s) {op : Op} (counts : Counts capacity s op) :
    Tallied (apply capacity s op) :=
  ⟨tallied.kept.apply op, counts.2, runWith_fits _ tallied.fits⟩

/-- In a run of operations on an empty store the counter never goes below zero, nor below the
number of cookies held, exactly where each of them is known when it is made. -/
theorem counter_covers_iff (capacity : Capacity) (ops : List Op) :
    (sequential capacity).Always (Counts capacity) Shared.new ops ↔
      (sequential capacity).Always Known Shared.new ops := by
  refine Machine.Always.iff_of_invariant Tallied ?_ (fun s op tallied => counts_iff tallied op)
    tallied_new
  intro s op s' counts tallied stepped
  cases stepped
  exact tallied.apply counts

/-- A removal from an empty store takes from a counter at zero. -/
theorem remove_absent_wraps : ¬ (sequential .default).Always (Counts .default) Shared.new
    [.remove ⟨"a".toList, "com".toList, "/".toList, true⟩] := by
  intro counts
  exact counts.1.1.1 rfl

end HClient.Cookies.KvStore
