import Mathlib.Data.List.Basic
import Mathlib.Tactic

/-!
# Answers about the front of a stream

A function of the bytes that have arrived may wait for more. Once it does not wait, more bytes
do not change what it says. A framer takes items off the front one after another, and what it
takes is then the same however the stream was cut.
-/
namespace HClient

variable {α β γ δ ε : Type}

/-- More input changes no answer that is not a wait. -/
def Settles (waits : γ → Prop) (f : List β → γ) : Prop :=
  ∀ bytes more, ¬ waits (f bytes) → f (bytes ++ more) = f bytes

/-- The wait of a function that may have nothing to say yet. -/
abbrev SettlesSome (f : List β → Option α) : Prop := Settles (· = none) f

namespace Settles

theorem const {waits : γ → Prop} (c : γ) : Settles waits fun _ : List β => c := fun _ _ _ => rfl

theorem some_of {f : List β → Option α} (settles : SettlesSome f) {bytes : List β} {a : α}
    (said : f bytes = some a) (more : List β) : f (bytes ++ more) = some a := by
  rw [settles bytes more (by rw [said]; exact Option.some_ne_none a), said]

theorem of_some {f : List β → Option α}
    (said : ∀ bytes a, f bytes = some a → ∀ more, f (bytes ++ more) = some a) :
    SettlesSome f := by
  intro bytes more waits
  obtain ⟨a, ha⟩ := Option.ne_none_iff_exists'.mp waits
  rw [said bytes a ha more, ha]

end Settles

/-- Items in front of what was answered later. -/
def prepend (items : List α) (r : List α × δ) : List α × δ := (items ++ r.1, r.2)

@[simp] theorem prepend_nil (r : List α × δ) : prepend [] r = r := rfl

@[simp] theorem prepend_snd (items : List α) (r : List α × δ) : (prepend items r).2 = r.2 := rfl

@[simp] theorem prepend_fst (items : List α) (r : List α × δ) :
    (prepend items r).1 = items ++ r.1 := rfl

theorem prepend_prepend (first second : List α) (r : List α × δ) :
    prepend first (prepend second r) = prepend (first ++ second) r :=
  Prod.ext (List.append_assoc first second r.1).symm rfl

/-- It waits, or it answers and says how many bytes that took. -/
structure Framer (β α : Type) where
  take : List β → Option (α × Nat)
  settles : SettlesSome take
  fits : ∀ {bytes a n}, take bytes = some (a, n) → n ≤ bytes.length
  progress : ∀ {bytes a n}, take bytes = some (a, n) → 0 < n

namespace Framer
variable (F : Framer β α)

def drainUpTo : Nat → List β → List α × List β
  | 0, bytes => ([], bytes)
  | fuel + 1, bytes =>
      match F.take bytes with
      | none => ([], bytes)
      | some (a, n) => prepend [a] (drainUpTo fuel (bytes.drop n))

/-- The items at the front, until it waits, and what is left. -/
def drain (bytes : List β) : List α × List β := F.drainUpTo bytes.length bytes

/-- What the items are when the bytes arrive in pieces. -/
def feed (buf : List β) : List (List β) → List α × List β
  | [] => ([], buf)
  | chunk :: chunks =>
      prepend (F.drain (buf ++ chunk)).1 (feed (F.drain (buf ++ chunk)).2 chunks)

variable {F}

theorem length_drop {bytes : List β} {a : α} {n : Nat} (taken : F.take bytes = some (a, n)) :
    (bytes.drop n).length < bytes.length := by
  have := F.fits taken
  have := F.progress taken
  rw [List.length_drop]
  omega

/-- Every item takes a byte, so that any fuel from the number of bytes on is enough. -/
theorem drainUpTo_of_le {fuel : Nat} {bytes : List β} (enough : bytes.length ≤ fuel) :
    F.drainUpTo fuel bytes = F.drain bytes := by
  have steady : ∀ (m n : Nat) (bytes : List β), bytes.length ≤ m → bytes.length ≤ n →
      F.drainUpTo m bytes = F.drainUpTo n bytes := by
    intro m
    induction m with
    | zero =>
        intro n bytes small _
        have empty : bytes = [] := List.length_eq_zero_iff.mp (by omega)
        subst empty
        cases n with
        | zero => rfl
        | succ n =>
            cases taken : F.take ([] : List β) with
            | none => simp only [drainUpTo, taken]
            | some r => exact absurd (length_drop taken) (by simp)
    | succ m ih =>
        intro n bytes small enough
        cases taken : F.take bytes with
        | none => cases n <;> simp only [drainUpTo, taken]
        | some r =>
            have shorter := length_drop taken
            cases n with
            | zero => omega
            | succ n =>
                simp only [drainUpTo, taken]
                rw [ih n _ (by omega) (by omega)]
  exact steady fuel bytes.length bytes enough le_rfl

theorem drain_none {bytes : List β} (waits : F.take bytes = none) :
    F.drain bytes = ([], bytes) := by
  rw [← drainUpTo_of_le (Nat.le_succ bytes.length)]
  simp only [drainUpTo, waits]

theorem drain_some {bytes : List β} {a : α} {n : Nat} (taken : F.take bytes = some (a, n)) :
    F.drain bytes = prepend [a] (F.drain (bytes.drop n)) := by
  have shorter := length_drop taken
  rw [← drainUpTo_of_le (Nat.le_succ bytes.length)]
  simp only [drainUpTo, taken]
  rw [drainUpTo_of_le (by omega)]

/-- What a whole item takes in front of anything. -/
theorem drain_append_of_take {item more : List β} {a : α}
    (taken : F.take item = some (a, item.length)) :
    F.drain (item ++ more) = prepend [a] (F.drain more) := by
  rw [drain_some (F.settles.some_of taken more), List.drop_left]

theorem take_drain (bytes : List β) : F.take (F.drain bytes).2 = none := by
  induction len : bytes.length using Nat.strong_induction_on generalizing bytes with
  | _ k ih =>
      cases taken : F.take bytes with
      | none => rw [drain_none taken, taken]
      | some r =>
          rw [drain_some taken]
          exact ih _ (len ▸ length_drop taken) _ rfl

/-- Draining what is there and then the rest is draining both at once. -/
theorem drain_append (bytes more : List β) :
    F.drain (bytes ++ more) =
      prepend (F.drain bytes).1 (F.drain ((F.drain bytes).2 ++ more)) := by
  induction len : bytes.length using Nat.strong_induction_on generalizing bytes with
  | _ k ih =>
      cases taken : F.take bytes with
      | none => rw [drain_none taken, prepend_nil]
      | some r =>
          obtain ⟨a, n⟩ := r
          have shorter := length_drop taken
          rw [drain_some (F.settles.some_of taken more), drain_some taken,
            List.drop_append_of_le_length (F.fits taken), ih _ (len ▸ shorter) _ rfl,
            prepend_prepend, prepend_snd, prepend_fst]

/-- However the bytes are cut, the items are those of the whole. -/
theorem feed_eq_drain (buf : List β) (waits : F.take buf = none) (chunks : List (List β)) :
    F.feed buf chunks = F.drain (buf ++ chunks.flatten) := by
  induction chunks generalizing buf with
  | nil => rw [List.flatten_nil, List.append_nil, drain_none waits, feed]
  | cons chunk chunks ih =>
      rw [feed, ih _ (take_drain _), List.flatten_cons, ← List.append_assoc,
        drain_append (buf ++ chunk)]

end Framer
end HClient
