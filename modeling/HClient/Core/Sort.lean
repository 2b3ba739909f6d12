import Mathlib
import Mathlib.Data.List.Basic
import Mathlib.Order.Defs.LinearOrder

/-!
# Sorting with a tie-break

Sorting by one order what already stands in the order of another is sorting by the first and
then the second.
-/
namespace HClient.Sort

variable {α : Type} {l l' : List α} {le : α → α → Bool} {place : α → Nat} {a b : α}

/-- In a list without repetition one of two elements stands first. -/
theorem not_both_pairs (distinct : l.Nodup) (first : [a, b].Sublist l)
    (second : [b, a].Sublist l) : False := by
  induction l with
  | nil => cases first
  | cons c l ih =>
      obtain ⟨fresh, distinct⟩ := List.nodup_cons.mp distinct
      cases first with
      | cons _ first =>
          cases second with
          | cons _ second => exact ih distinct first second
          | cons_cons _ second => exact fresh (first.subset (by simp))
      | cons_cons _ first =>
          cases second with
          | cons _ second => exact fresh (second.subset (by simp))
          | cons_cons _ second => exact fresh (first.subset (by simp))

theorem pair_of_lt (placed : l.Pairwise fun a b => place a < place b) (mem_a : a ∈ l)
    (mem_b : b ∈ l) (lt : place a < place b) : [a, b].Sublist l := by
  induction l with
  | nil => cases mem_a
  | cons c l ih =>
      obtain ⟨head, tail⟩ := List.pairwise_cons.mp placed
      obtain rfl | rest_a := List.mem_cons.mp mem_a
      · obtain rfl | rest_b := List.mem_cons.mp mem_b
        · exact absurd lt (Nat.lt_irrefl _)
        · exact (List.singleton_sublist.mpr rest_b).cons_cons _
      · obtain rfl | rest_b := List.mem_cons.mp mem_b
        · exact absurd (head a rest_a) (Nat.lt_asymm lt)
        · exact (ih tail rest_a rest_b).cons _

/-- The first order, and the places where it does not decide. -/
def lex (le : α → α → Bool) (place : α → Nat) (a b : α) : Bool :=
  le a b && (!le b a || decide (place a ≤ place b))

theorem lex_iff : lex le place a b = true ↔
    le a b = true ∧ (le b a = true → place a ≤ place b) := by
  cases ab : le a b <;> cases ba : le b a <;> simp [lex, ab, ba]

theorem lex_trans (trans : ∀ a b c, le a b = true → le b c = true → le a c = true) (a b c : α)
    (ab : lex le place a b = true) (bc : lex le place b c = true) :
    lex le place a c = true := by
  rw [lex_iff] at ab bc ⊢
  refine ⟨trans a b c ab.1 bc.1, fun ca => ?_⟩
  exact Nat.le_trans (ab.2 (trans b c a bc.1 ca)) (bc.2 (trans c a b ca ab.1))

theorem lex_total (total : ∀ a b, (le a b || le b a) = true) (a b : α) :
    (lex le place a b || lex le place b a) = true := by
  have either := total a b
  have places := Nat.le_total (place a) (place b)
  cases ab : le a b <;> cases ba : le b a <;> simp_all [lex]

/-- A list in the order of its places is sorted, by an order that may leave ties, into the
order with the places as tie-break. -/
theorem mergeSort_eq_lex (trans : ∀ a b c, le a b = true → le b c = true → le a c = true)
    (total : ∀ a b, (le a b || le b a) = true) (placed : l.Pairwise fun a b => place a < place b)
    (same : l'.Perm l) : l'.mergeSort (lex le place) = l.mergeSort le := by
  have distinct : l.Nodup := placed.imp fun lt same => absurd (same ▸ lt) (Nat.lt_irrefl _)
  have perm : (l.mergeSort le).Perm l := List.mergeSort_perm l le
  have sorted : (l.mergeSort le).Pairwise fun a b => lex le place a b = true := by
    rw [List.pairwise_iff_forall_sublist]
    intro a b pair
    rw [lex_iff]
    have mem_a : a ∈ l := perm.subset (pair.subset (by simp))
    have mem_b : b ∈ l := perm.subset (pair.subset (by simp))
    refine ⟨List.pairwise_iff_forall_sublist.mp (List.pairwise_mergeSort trans total l) pair,
      fun ba => ?_⟩
    by_contra gt
    have earlier : [b, a].Sublist l := pair_of_lt placed mem_b mem_a (Nat.lt_of_not_le gt)
    exact not_both_pairs (perm.nodup_iff.mpr distinct) pair
      (List.pair_sublist_mergeSort trans total ba earlier)
  refine List.Perm.eq_of_pairwise ?_ (List.pairwise_mergeSort (lex_trans trans)
    (lex_total total) l') sorted ((List.mergeSort_perm l' _).trans (same.trans perm.symm))
  intro a b mem_a mem_b ab ba
  rw [lex_iff] at ab ba
  have places : (l.map place).Nodup :=
    List.pairwise_map.mpr (placed.imp fun lt => Nat.ne_of_lt lt)
  refine List.inj_on_of_nodup_map places ?_ (perm.subset mem_b)
    (Nat.le_antisymm (ab.2 ba.1) (ba.2 ab.1))
  exact same.subset ((List.mergeSort_perm l' _).subset mem_a)

theorem mergeSort_pair (le : α → α → Bool) (a b : α) :
    [a, b].mergeSort le = if le a b then [a, b] else [b, a] := by
  simp only [List.mergeSort, List.MergeSort.Internal.splitInTwo]
  simp [List.merge]

/-- In a list sorted by a key, no element that a search could have found has a key below the
one it found. -/
theorem find?_least {κ : Type} [LinearOrder κ] (key : α → κ) {p : α → Bool}
    (sorted : l.Pairwise fun a b => key a ≤ key b) (found : l.find? p = some a)
    (mem : b ∈ l) (holds : p b = true) : key a ≤ key b := by
  obtain ⟨-, before, after, split, skipped⟩ := List.find?_eq_some_iff_append.mp found
  subst split
  rcases List.mem_append.mp mem with earlier | later
  · have refused := skipped b earlier
    simp [holds] at refused
  · rcases List.mem_cons.mp later with rfl | later
    · exact le_refl _
    · have rest := (List.pairwise_append.mp sorted).2.1
      exact (List.pairwise_cons.mp rest).1 b later

end HClient.Sort

/-!
## The first of the greatest

What a loop is left with that keeps an element where it is greater than the one kept so far.
-/
namespace HClient.Greatest

variable {α β : Type} [LinearOrder β] {f : α → β} {l : List α} {a b : α}

def keep (f : α → β) (best : Option α) (a : α) : Option α :=
  if best.all fun b => decide (f b < f a) then some a else best

/-- Everything before it is less, and nothing behind it is greater. -/
def First (f : α → β) (l : List α) (a : α) : Prop :=
  ∃ before after, l = before ++ a :: after ∧ (∀ b ∈ before, f b < f a) ∧ ∀ b ∈ after, f b ≤ f a

theorem First.le (first : First f l a) : ∀ b ∈ l, f b ≤ f a := by
  obtain ⟨before, after, rfl, less, atMost⟩ := first
  intro b member
  cases List.mem_append.mp member with
  | inl member => exact le_of_lt (less b member)
  | inr member =>
      cases List.mem_cons.mp member with
      | inl same => exact same ▸ le_rfl
      | inr member => exact atMost b member

theorem First.greater (first : First f l a) (greater : f a < f b) : First f (l ++ [b]) b :=
  ⟨l, [], rfl, fun c member => lt_of_le_of_lt (first.le c member) greater, nofun⟩

theorem First.stays (first : First f l a) (atMost : f b ≤ f a) : First f (l ++ [b]) a := by
  obtain ⟨before, after, rfl, less, behind⟩ := first
  refine ⟨before, after ++ [b], by simp, less, ?_⟩
  intro c member
  cases List.mem_append.mp member with
  | inl member => exact behind c member
  | inr member =>
      rw [List.mem_singleton.mp member]
      exact atMost

theorem foldl_keep_some {seen : List α} (first : First f seen a) (l : List α) :
    ∃ c, l.foldl (keep f) (some a) = some c ∧ First f (seen ++ l) c := by
  induction l generalizing seen a with
  | nil => exact ⟨a, rfl, by rwa [List.append_nil]⟩
  | cons b l ih =>
      rw [List.foldl_cons, List.append_cons]
      by_cases greater : f a < f b
      · have kept : keep f (some a) b = some b := if_pos (decide_eq_true greater)
        rw [kept]
        exact ih (first.greater greater)
      · have kept : keep f (some a) b = some a := if_neg (by simpa using greater)
        rw [kept]
        exact ih (first.stays (le_of_not_gt greater))

theorem foldl_keep (f : α → β) (l : List α) : (l = [] ∧ l.foldl (keep f) none = none) ∨
    ∃ c, l.foldl (keep f) none = some c ∧ First f l c := by
  cases l with
  | nil => exact .inl ⟨rfl, rfl⟩
  | cons a l =>
      have alone : First f [a] a := ⟨[], [], rfl, nofun, nofun⟩
      exact .inr (foldl_keep_some alone l)

end HClient.Greatest
