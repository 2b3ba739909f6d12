import HClient.Core.Time

/-!
# Backing off

The delay before an attempt, of `sansio::backoff`: the base doubled for every attempt made, held
at the maximum, and scaled by the fraction that the jitter leaves of it. The arithmetic is that
of the machine, and comes to the formula over the natural numbers.
-/
namespace HClient

/-- `Duration::checked_mul`. -/
def Duration.checkedMul (d : Duration) (n : Nat) : Option Duration :=
  if d * n ≤ longest then some (d * n) else none

/-- `Duration::new` on what is cast to its two fields. -/
def Duration.new (secs nanos : Nat) : Duration :=
  secs % 2 ^ 64 * nanosPerSec + nanos % 2 ^ 32

/-- `u128::checked_mul`. -/
def checkedMulU128 (a b : Nat) : Option Nat :=
  if a * b < 2 ^ 128 then some (a * b) else none

/-- The cap holds however late in a product it is taken. -/
theorem min_mul_of_min {cap a c : Nat} (positive : 0 < c) :
    min cap (min a cap * c) = min cap (a * c) := by
  rcases Nat.le_total a cap with below | above
  · rw [Nat.min_eq_left below]
  · rw [Nat.min_eq_right above, Nat.min_eq_left (Nat.le_mul_of_pos_right cap positive),
      Nat.min_eq_left (above.trans (Nat.le_mul_of_pos_right a positive))]

theorem Duration.new_of_le {nanos : Nat} (fits : nanos ≤ longest) :
    new (nanos / nanosPerSec) (nanos % nanosPerSec) = nanos := by
  have secs : nanos / nanosPerSec < 2 ^ 64 := by
    apply (Nat.div_lt_iff_lt_mul (by decide)).mpr
    exact Nat.lt_of_le_of_lt fits (by decide)
  have rest : nanos % nanosPerSec < 2 ^ 32 := (Nat.mod_lt nanos (by decide)).trans (by decide)
  rw [new, Nat.mod_eq_of_lt secs, Nat.mod_eq_of_lt rest, Nat.mul_comm, Nat.div_add_mod]

namespace Client

/-- The lengths of time are ones that a `Duration` can be. -/
structure Backoff where
  base : Duration
  max : Duration
  maxAttempts : Option Nat
  base_le : base ≤ Duration.longest
  max_le : max ≤ Duration.longest

def fixedPointDenom : Nat := 2 ^ 32

/-- The fraction that is kept of a delay, as its numerator. -/
abbrev KeepNum := { k : Nat // k ≤ fixedPointDenom }

/-- There is no answer where the product does not fit. -/
def scaleByKeptFraction (d : Duration) (keep : KeepNum) : Option Duration :=
  (checkedMulU128 d keep).map fun product =>
    let scaled := product / fixedPointDenom
    .new (scaled / nanosPerSec) (scaled % nanosPerSec)

namespace Backoff

def maxDoublings : Nat := 128

/-- The loop of `delay`, with as many doublings left. -/
def doubled (max : Duration) : Nat → Duration → Duration
  | 0, raw => raw
  | n + 1, raw =>
      if max ≤ raw then raw
      else doubled max n (((raw.checkedMul 2).map fun d => min d max).getD max)

/-- `delay` as it is computed: there is no answer where a product does not fit, and none in the
answer where there is to be no attempt. -/
def computed (b : Backoff) (attempt : Nat) (keep : KeepNum) : Option (Option Duration) :=
  if b.maxAttempts.any fun limit => limit ≤ attempt then some none
  else
    (scaleByKeptFraction (doubled b.max (min attempt maxDoublings) (min b.base b.max)) keep).map some

variable {b : Backoff} {attempt : Nat} {keep : KeepNum}

/-- What the delay comes to in unbounded integers. -/
def formula (b : Backoff) (attempt : Nat) (keep : KeepNum) : Duration :=
  min b.max (b.base * 2 ^ attempt) * keep / fixedPointDenom

/-- One doubling is the product, held at the maximum. -/
theorem doubling_eq {max raw : Duration} (max_le : max ≤ Duration.longest) :
    ((raw.checkedMul 2).map fun d => min d max).getD max = min (raw * 2) max := by
  unfold Duration.checkedMul
  split
  · rfl
  next long => exact (Nat.min_eq_right (max_le.trans (Nat.le_of_not_le long))).symm

theorem doubled_eq {max : Duration} (max_le : max ≤ Duration.longest) (n : Nat) (raw : Duration)
    (below : raw ≤ max) : doubled max n raw = min max (raw * 2 ^ n) := by
  induction n generalizing raw with
  | zero => rw [doubled, Nat.pow_zero, Nat.mul_one, Nat.min_eq_right below]
  | succ n ih =>
      unfold doubled
      split
      next reached =>
        have same : raw = max := Nat.le_antisymm below reached
        rw [same]
        exact (Nat.min_eq_left (Nat.le_mul_of_pos_right max (Nat.two_pow_pos _))).symm
      · rw [doubling_eq max_le, ih _ (Nat.min_le_right _ _), min_mul_of_min (Nat.two_pow_pos n),
          Nat.mul_assoc, Nat.pow_succ, Nat.mul_comm 2]

/-- After so many doublings everything but nothing is at the maximum, so that the loop may end
there. -/
theorem min_doublings (b : Backoff) (attempt : Nat) :
    min b.max (b.base * 2 ^ min attempt maxDoublings) = min b.max (b.base * 2 ^ attempt) := by
  rcases Nat.le_total attempt maxDoublings with few | many
  · rw [Nat.min_eq_left few]
  rw [Nat.min_eq_right many]
  rcases Nat.eq_zero_or_pos b.base with zero | positive
  · rw [zero, Nat.zero_mul, Nat.zero_mul]
  have reached : b.max ≤ b.base * 2 ^ maxDoublings := by
    apply b.max_le.trans
    apply le_trans (b := 2 ^ maxDoublings)
    · decide
    · exact Nat.le_mul_of_pos_left _ positive
  have further : b.base * 2 ^ maxDoublings ≤ b.base * 2 ^ attempt :=
    Nat.mul_le_mul_left _ (Nat.pow_le_pow_right Nat.two_pos many)
  rw [Nat.min_eq_left reached, Nat.min_eq_left (reached.trans further)]

theorem doubled_delay (b : Backoff) (attempt : Nat) :
    doubled b.max (min attempt maxDoublings) (min b.base b.max) =
      min b.max (b.base * 2 ^ attempt) := by
  rw [doubled_eq b.max_le _ _ (Nat.min_le_right _ _), min_mul_of_min (Nat.two_pow_pos _),
    min_doublings]

theorem scaled_le (d : Duration) (keep : KeepNum) : d * keep / fixedPointDenom ≤ d := by
  apply (Nat.div_le_iff_le_mul_add_pred (by decide)).mpr
  have kept : d * keep ≤ d * fixedPointDenom := Nat.mul_le_mul_left d keep.2
  rw [Nat.mul_comm fixedPointDenom]
  exact kept.trans (Nat.le_add_right _ _)

/-- The product fits, and so do the two fields of what is left of it. -/
theorem scaleByKeptFraction_eq {d : Duration} (fits : d ≤ Duration.longest) (keep : KeepNum) :
    scaleByKeptFraction d keep = some (d * keep / fixedPointDenom) := by
  have product : d * keep < 2 ^ 128 := by
    have bound : d * keep ≤ Duration.longest * fixedPointDenom := Nat.mul_le_mul fits keep.2
    exact Nat.lt_of_le_of_lt bound (by decide)
  rw [scaleByKeptFraction, checkedMulU128, if_pos product, Option.map_some,
    Duration.new_of_le ((scaled_le d keep).trans fits)]

theorem computed_eq (b : Backoff) (attempt : Nat) (keep : KeepNum) :
    b.computed attempt keep = some (if b.maxAttempts.any fun limit => limit ≤ attempt then none
      else some (b.formula attempt keep)) := by
  have fits : min b.max (b.base * 2 ^ attempt) ≤ Duration.longest :=
    (Nat.min_le_left _ _).trans b.max_le
  unfold computed
  split
  · rfl
  · rw [doubled_delay, scaleByKeptFraction_eq fits]
    rfl

/-- `delay`, which has an answer: every product fits. -/
def delay (b : Backoff) (attempt : Nat) (keep : KeepNum) : Option Duration :=
  (b.computed attempt keep).get (by rw [computed_eq]; rfl)

theorem formula_le (b : Backoff) (attempt : Nat) (keep : KeepNum) :
    b.formula attempt keep ≤ b.max :=
  (scaled_le _ keep).trans (Nat.min_le_left _ _)

theorem formula_mono {attempt' : Nat} (later : attempt ≤ attempt') :
    b.formula attempt keep ≤ b.formula attempt' keep := by
  have doublings : b.base * 2 ^ attempt ≤ b.base * 2 ^ attempt' :=
    Nat.mul_le_mul_left _ (Nat.pow_le_pow_right Nat.two_pos later)
  apply Nat.div_le_div_right
  apply Nat.mul_le_mul_right
  exact min_le_min_left _ doublings

/-- The delay before every attempt below the limit is the formula's. No product overflows on the
way, it is never above the maximum, and a later attempt with the same fraction waits no
shorter. -/
theorem computed_below_limit (b : Backoff) (attempt : Nat) (keep : KeepNum)
    (below : ∀ limit ∈ b.maxAttempts, attempt < limit) :
    b.computed attempt keep = some (some (b.formula attempt keep)) ∧
      b.formula attempt keep ≤ b.max ∧
      ∀ attempt' ≤ attempt, ∃ d ≤ b.formula attempt keep, b.computed attempt' keep = some (some d) := by
  have answered : ∀ attempt' ≤ attempt,
      b.computed attempt' keep = some (some (b.formula attempt' keep)) := by
    intro attempt' earlier
    rw [computed_eq, if_neg]
    intro reached
    obtain ⟨limit, limited, reached⟩ := (Option.any_eq_true _ _).mp reached
    exact absurd (earlier.trans_lt (below limit limited)) (Nat.not_lt.mpr (of_decide_eq_true reached))
  refine ⟨answered attempt le_rfl, b.formula_le attempt keep, ?_⟩
  intro attempt' earlier
  exact ⟨_, formula_mono earlier, answered attempt' earlier⟩

/-- The default of the retry policy. -/
def ofStandard : Backoff :=
  ⟨100000000, .fromSecs 10, some 3, by decide, by decide⟩

theorem computed_standard : ofStandard.computed 2 ⟨2 ^ 31, by decide⟩ = some (some 200000000) := by
  obtain ⟨answered, -, -⟩ := computed_below_limit ofStandard 2 ⟨2 ^ 31, by decide⟩
    (by simp [ofStandard])
  exact answered

end Backoff
end Client
end HClient
