import HClient.Core.Header
import HClient.Native.Error

/-!
# Frames of a body

What polls of an `http_body::Body` answer, and the size it says is still to come.
-/
namespace HClient.Body

open Native

/-- `Poll<Option<Result<Frame<Bytes>, Error>>>`. -/
inductive Answer where
  | pending
  | ended
  | failed (e : Error)
  | data (bytes : List UInt8)
  | trailers (fields : HeaderMap HeaderValue)

namespace Answer

/-- `Frame::data_ref`, with no bytes where there is no data. -/
def bytes : Answer → List UInt8
  | .data bytes => bytes
  | _ => []

def isData : Answer → Bool
  | .data _ => true
  | _ => false

def isTrailers : Answer → Bool
  | .trailers _ => true
  | _ => false

def isFailed : Answer → Bool
  | .failed _ => true
  | _ => false

def isLast : Answer → Bool
  | .failed _ | .ended => true
  | _ => false

def isFrame (a : Answer) : Bool := a.isData || a.isTrailers

theorem isFailed_of_isLast {a : Answer} (on : a.isLast = false) : a.isFailed = false := by
  cases a with
  | failed => cases on
  | ended => cases on
  | pending => rfl
  | data => rfl
  | trailers => rfl

theorem not_frame_of_isFailed {a : Answer} (failed : a.isFailed = true) : a.isFrame = false := by
  cases a with
  | failed => rfl
  | pending => rfl
  | ended => rfl
  | data => cases failed
  | trailers => cases failed

theorem bytes_of_not_frame {a : Answer} (none : ¬ a.isFrame = true) : a.bytes = [] := by
  cases a with
  | data => exact absurd rfl none
  | pending => rfl
  | ended => rfl
  | failed => rfl
  | trailers => rfl

end Answer

/-- The bytes of the data frames among `answers`. -/
def output (answers : List Answer) : List UInt8 := answers.flatMap Answer.bytes

def firstError : List Answer → Option Error
  | [] => none
  | .failed e :: _ => some e
  | _ :: rest => firstError rest

@[simp] theorem output_cons (a : Answer) (answers : List Answer) :
    output (a :: answers) = a.bytes ++ output answers := rfl

/-- `http_body::SizeHint`, whose setters refuse a lower bound above the upper one. -/
structure SizeHint where
  lower : Nat
  upper : Option Nat
  ordered : ∀ u ∈ upper, lower ≤ u

namespace SizeHint

def default : SizeHint := ⟨0, none, nofun⟩

def withExact (n : Nat) : SizeHint := ⟨n, some n, by simp⟩

theorem atMost_ordered (hint : SizeHint) (left : Nat) :
    ∀ u ∈ (match hint.upper with
      | some u => if u ≤ left then some u else some left
      | none => some left), (if hint.lower > left then left else hint.lower) ≤ u := by
  intro u member
  rcases hint with ⟨lower, _ | upper, ordered⟩
  · obtain rfl : left = u := by simpa using member
    dsimp only
    split <;> omega
  · have := ordered upper rfl
    dsimp only at member ⊢
    split at member <;> cases member <;> split <;> omega

/-- Both bounds narrowed to `left`. -/
def atMost (hint : SizeHint) (left : Nat) : SizeHint where
  lower := if hint.lower > left then left else hint.lower
  upper := match hint.upper with
    | some u => if u ≤ left then some u else some left
    | none => some left
  ordered := atMost_ordered hint left

def Contains (hint : SizeHint) (n : Nat) : Prop := hint.lower ≤ n ∧ ∀ u ∈ hint.upper, n ≤ u

theorem default_contains (n : Nat) : default.Contains n := ⟨Nat.zero_le n, nofun⟩

theorem withExact_contains {n k : Nat} : (withExact n).Contains k ↔ n = k := by
  constructor
  · rintro ⟨low, high⟩
    exact Nat.le_antisymm low (high n rfl)
  · rintro rfl
    exact ⟨Nat.le_refl n, fun u same => Nat.le_of_eq (Option.some.inj same)⟩

theorem atMost_contains {hint : SizeHint} {left n : Nat} (within : hint.Contains n)
    (fits : n ≤ left) : (hint.atMost left).Contains n := by
  rcases hint with ⟨lower, _ | upper, ordered⟩
  · refine ⟨?_, fun u same => ?_⟩
    · have := within.1
      dsimp only [atMost] at this ⊢
      split <;> omega
    · obtain rfl : left = u := Option.some.inj same
      exact fits
  · have low := within.1
    have high := within.2 upper rfl
    dsimp only [Contains, atMost] at low ⊢
    refine ⟨by split <;> omega, fun u same => ?_⟩
    split at same <;> cases same <;> omega

end SizeHint
end HClient.Body
