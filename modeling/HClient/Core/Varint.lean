import HClient.Core.Framer

/-!
# Variable-length integers

Two bits that give the length, and a number in the rest of one, two, four or eight bytes.
-/
namespace HClient

/-- The low bytes of a number, the highest of them first. -/
def toBe : Nat → Nat → List UInt8
  | 0, _ => []
  | width + 1, n => UInt8.ofNat (n / 256 ^ width) :: toBe width n

/-- The number these bytes go on to spell. -/
def fromBe (start : Nat) (bytes : List UInt8) : Nat :=
  bytes.foldl (fun v b => v <<< 8 ||| b.toNat) start

@[simp] theorem length_toBe (width n : Nat) : (toBe width n).length = width := by
  induction width with
  | zero => rfl
  | succ width ih => rw [toBe, List.length_cons, ih]

theorem shift_or_toNat (v : Nat) (b : UInt8) : v <<< 8 ||| b.toNat = v * 256 + b.toNat := by
  rw [← Nat.shiftLeft_add_eq_or_of_lt (UInt8.toNat_lt b), Nat.shiftLeft_eq]

theorem fromBe_toBe (start width n : Nat) :
    fromBe start (toBe width n) = start * 256 ^ width + n % 256 ^ width := by
  induction width generalizing start with
  | zero => simp [toBe, fromBe, Nat.mod_one]
  | succ width ih =>
      have low : n % 256 ^ (width + 1) = n % 256 ^ width + 256 ^ width * (n / 256 ^ width % 256) := by
        rw [Nat.pow_succ, Nat.mod_mul]
      have step : fromBe start (toBe (width + 1) n) =
          fromBe (start * 256 + n / 256 ^ width % 256) (toBe width n) := by
        simp only [toBe, fromBe, List.foldl_cons, shift_or_toNat, UInt8.toNat_ofNat']
      rw [step, ih, low, Nat.pow_succ]
      ring

theorem fromBe_lt (start : Nat) (bytes : List UInt8) :
    fromBe start bytes < (start + 1) * 256 ^ bytes.length := by
  induction bytes generalizing start with
  | nil => simp [fromBe]
  | cons b bytes ih =>
      have byte := UInt8.toNat_lt b
      calc fromBe start (b :: bytes) = fromBe (start * 256 + b.toNat) bytes := by
            rw [fromBe, List.foldl_cons, shift_or_toNat, fromBe]
        _ < (start * 256 + b.toNat + 1) * 256 ^ bytes.length := ih _
        _ ≤ ((start + 1) * 256) * 256 ^ bytes.length := by
            gcongr
            omega
        _ = (start + 1) * 256 ^ (b :: bytes).length := by
            rw [List.length_cons, Nat.pow_succ]; ring

theorem le_fromBe (start : Nat) (bytes : List UInt8) :
    start * 256 ^ bytes.length ≤ fromBe start bytes := by
  induction bytes generalizing start with
  | nil => simp [fromBe]
  | cons b bytes ih =>
      calc start * 256 ^ (b :: bytes).length = start * 256 * 256 ^ bytes.length := by
            rw [List.length_cons, Nat.pow_succ]; ring
        _ ≤ (start * 256 + b.toNat) * 256 ^ bytes.length := by gcongr; omega
        _ ≤ fromBe (start * 256 + b.toNat) bytes := ih _
        _ = fromBe start (b :: bytes) := by rw [fromBe, fromBe, List.foldl_cons, shift_or_toNat]

theorem toBe_fromBe (start : Nat) (bytes : List UInt8) :
    toBe bytes.length (fromBe start bytes) = bytes := by
  induction bytes generalizing start with
  | nil => rfl
  | cons b bytes ih =>
      have step : fromBe start (b :: bytes) = fromBe (start * 256 + b.toNat) bytes := by
        rw [fromBe, fromBe, List.foldl_cons, shift_or_toNat]
      have high : fromBe (start * 256 + b.toNat) bytes / 256 ^ bytes.length =
          start * 256 + b.toNat :=
        Nat.div_eq_of_lt_le (le_fromBe _ bytes) (fromBe_lt _ bytes)
      rw [List.length_cons, toBe, step, high, ih]
      congr 1
      apply UInt8.toNat_inj.mp
      have byte := UInt8.toNat_lt b
      rw [UInt8.toNat_ofNat']
      omega

theorem toBe_add (width n m : Nat) : toBe width (n + m * 256 ^ width) = toBe width n := by
  induction width generalizing m with
  | zero => rfl
  | succ width ih =>
      have split : n + m * 256 ^ (width + 1) = n + m * 256 * 256 ^ width := by
        rw [Nat.pow_succ]; ring
      have high : (n + m * 256 * 256 ^ width) / 256 ^ width = n / 256 ^ width + m * 256 :=
        Nat.add_mul_div_right _ _ (Nat.pow_pos (by decide))
      rw [toBe, toBe, split, ih, high]
      congr 1
      apply UInt8.toNat_inj.mp
      rw [UInt8.toNat_ofNat', UInt8.toNat_ofNat']
      omega

namespace Varint

/-- The number at the front and how many bytes it took, once they are all there. -/
def read : List UInt8 → Option (Nat × Nat)
  | [] => none
  | first :: bytes =>
      let len := 1 <<< (first >>> 6).toNat
      if (first :: bytes).length < len then none
      else some (fromBe (first &&& 0x3f).toNat (bytes.take (len - 1)), len)

/-- The two bits that say the length, for the shortest form. -/
def tag (v : Nat) : Nat :=
  if v < 2 ^ 6 then 0 else if v < 2 ^ 14 then 1 else if v < 2 ^ 30 then 2 else 3

/-- The shortest form. -/
def write (v : Nat) : List UInt8 :=
  let k := 2 ^ tag v - 1
  UInt8.ofNat (tag v * 64 + v / 256 ^ k) :: toBe k v

/-- These bytes and no more are a form of the number. -/
def Spells (bytes : List UInt8) (v : Nat) : Prop := read bytes = some (v, bytes.length)

theorem read_settles : SettlesSome read := by
  refine Settles.of_some fun bytes r said more => ?_
  cases bytes with
  | nil => cases said
  | cons first bytes =>
      simp only [read, List.cons_append] at said ⊢
      split at said
      next => cases said
      next enough =>
        cases said
        rw [List.length_cons] at enough
        rw [if_neg (by simp only [List.length_cons, List.length_append]; omega),
          List.take_append_of_le_length (by omega)]

theorem read_fits {bytes : List UInt8} {v n : Nat} (said : read bytes = some (v, n)) :
    n ≤ bytes.length := by
  cases bytes with
  | nil => cases said
  | cons first bytes =>
      simp only [read] at said
      split at said
      next => cases said
      next enough => cases said; omega

theorem read_pos {bytes : List UInt8} {v n : Nat} (said : read bytes = some (v, n)) : 0 < n := by
  cases bytes with
  | nil => cases said
  | cons first bytes =>
      simp only [read] at said
      split at said
      next => cases said
      next =>
        cases said
        rw [Nat.shiftLeft_eq, one_mul]
        exact Nat.two_pow_pos _

/-- What is read is spelled by the bytes it took. -/
theorem spells_take {bytes : List UInt8} {v n : Nat} (said : read bytes = some (v, n)) :
    Spells (bytes.take n) v := by
  have fits := read_fits said
  have length : (bytes.take n).length = n := by rw [List.length_take]; omega
  obtain ⟨k, rfl⟩ := Nat.exists_eq_succ_of_ne_zero (read_pos said).ne'
  cases bytes with
  | nil => cases said
  | cons first bytes =>
      rw [Spells, length]
      simp only [read, List.take_succ_cons] at said length ⊢
      split at said
      next => cases said
      next =>
        have same : 1 <<< (first >>> 6).toNat = k + 1 := congrArg (·.2) (Option.some.inj said)
        rw [same] at said ⊢
        rw [length, if_neg (Nat.lt_irrefl _), List.take_take]
        rw [Nat.add_sub_cancel] at said ⊢
        rw [Nat.min_self]
        exact said

theorem toNat_shift_lt (b : UInt8) : (b >>> 6).toNat < 4 := by
  have byte := UInt8.toNat_lt b
  rw [UInt8.toNat_shiftRight, Nat.shiftRight_eq_div_pow]
  change b.toNat / 2 ^ 6 < 4
  omega

theorem toNat_first {t q : Nat} (two : t < 4) (six : q < 64) :
    ((UInt8.ofNat (t * 64 + q)) >>> 6).toNat = t ∧
      ((UInt8.ofNat (t * 64 + q)) &&& 0x3f).toNat = q := by
  have whole : (UInt8.ofNat (t * 64 + q)).toNat = t * 64 + q := by
    rw [UInt8.toNat_ofNat']
    omega
  constructor
  · rw [UInt8.toNat_shiftRight, whole, Nat.shiftRight_eq_div_pow]
    change (t * 64 + q) / 2 ^ 6 = t
    omega
  · rw [UInt8.toNat_and, whole]
    change (t * 64 + q) &&& (2 ^ 6 - 1) = q
    rw [Nat.and_two_pow_sub_one_eq_mod]
    omega

theorem tag_lt (v : Nat) : tag v < 4 := by
  unfold tag
  split
  · decide
  · split
    · decide
    · split <;> decide

theorem lt_of_tag {v : Nat} (fits : v < 2 ^ 62) : v < 64 * 256 ^ (2 ^ tag v - 1) := by
  unfold tag
  split
  next small => exact small
  next =>
    split
    next small => exact small
    next =>
      split
      next small => exact small
      next => exact fits

@[simp] theorem length_write (v : Nat) : (write v).length = 2 ^ tag v := by
  rw [write, List.length_cons, length_toBe]
  exact Nat.sub_add_cancel (Nat.two_pow_pos _)

theorem read_len_le {bytes : List UInt8} {v n : Nat} (said : read bytes = some (v, n)) : n ≤ 8 := by
  cases bytes with
  | nil => cases said
  | cons first bytes =>
      simp only [read] at said
      split at said
      next => cases said
      next =>
        have same : 1 <<< (first >>> 6).toNat = n := congrArg (·.2) (Option.some.inj said)
        have two := toNat_shift_lt first
        rw [← same, Nat.shiftLeft_eq, one_mul]
        calc 2 ^ (first >>> 6).toNat ≤ 2 ^ 3 := Nat.pow_le_pow_right (by decide) (by omega)
          _ = 8 := rfl

/-- The length and the number as one number. -/
theorem write_eq (v : Nat) :
    write v = toBe (2 ^ tag v) (v + tag v * 64 * 256 ^ (2 ^ tag v - 1)) := by
  have width : 2 ^ tag v = 2 ^ tag v - 1 + 1 :=
    (Nat.sub_add_cancel (Nat.two_pow_pos _)).symm
  rw [write, width, toBe, Nat.add_sub_cancel, toBe_add,
    Nat.add_mul_div_right _ _ (Nat.pow_pos (by decide)), Nat.add_comm]

/-- What is written is read back, whatever is behind it. -/
theorem read_write {v : Nat} (fits : v < 2 ^ 62) (rest : List UInt8) :
    read (write v ++ rest) = some (v, (write v).length) := by
  have bound := lt_of_tag fits
  have high : v / 256 ^ (2 ^ tag v - 1) < 64 := Nat.div_lt_of_lt_mul (by rwa [mul_comm])
  obtain ⟨length, six⟩ := toNat_first (tag_lt v) high
  have long : (write v).length = 2 ^ tag v := length_write v
  have enough : ¬ (write v ++ rest).length < 2 ^ tag v := by
    rw [List.length_append, long]
    omega
  have tail : (toBe (2 ^ tag v - 1) v ++ rest).take (2 ^ tag v - 1) = toBe (2 ^ tag v - 1) v :=
    List.take_left' (length_toBe _ _)
  rw [long]
  simp only [write, List.cons_append, read] at enough ⊢
  rw [length, Nat.shiftLeft_eq, one_mul, if_neg enough, tail, six, fromBe_toBe]
  congr 2
  exact Nat.div_add_mod' v _

theorem tag_le {v t : Nat} (two : t < 4) (bound : v < 64 * 256 ^ (2 ^ t - 1)) : tag v ≤ t := by
  unfold tag
  interval_cases t <;> norm_num at bound ⊢ <;> grind

/-- A form of a number is at least as long as what is written for it. -/
theorem length_write_le {bytes : List UInt8} {v n : Nat} (said : read bytes = some (v, n)) :
    (write v).length ≤ n ∧ v < 2 ^ 62 := by
  cases bytes with
  | nil => cases said
  | cons first bytes =>
      simp only [read] at said
      split at said
      next => cases said
      next enough =>
        have two := toNat_shift_lt first
        have six : (first &&& 0x3f).toNat < 64 := by
          rw [UInt8.toNat_and]
          exact Nat.lt_of_le_of_lt Nat.and_le_right (by decide)
        generalize (first >>> 6).toNat = t at said two
        cases said
        rw [Nat.shiftLeft_eq, one_mul]
        have bound : fromBe (first &&& 0x3f).toNat (bytes.take (2 ^ t - 1)) <
            64 * 256 ^ (2 ^ t - 1) :=
          calc _ < ((first &&& 0x3f).toNat + 1) * 256 ^ (bytes.take (2 ^ t - 1)).length :=
                fromBe_lt _ _
            _ ≤ 64 * 256 ^ (2 ^ t - 1) :=
                Nat.mul_le_mul six (Nat.pow_le_pow_right (by decide) (List.length_take_le _ _))
        refine ⟨?_, ?_⟩
        · rw [length_write]
          exact Nat.pow_le_pow_right (by decide) (tag_le two bound)
        · refine bound.trans_le ?_
          have width : 2 ^ t - 1 ≤ 7 := by interval_cases t <;> decide
          calc 64 * 256 ^ (2 ^ t - 1) ≤ 64 * 256 ^ 7 :=
                Nat.mul_le_mul_left 64 (Nat.pow_le_pow_right (by decide) width)
            _ = 2 ^ 62 := by norm_num

end Varint
end HClient
