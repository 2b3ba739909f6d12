import HClient.Core.Bytes

/-!
# UTF-8 with replacements

`String::from_utf8_lossy`: what is not a character is replaced, one replacement for the longest
front of one. An ASCII byte stands for itself wherever it stands.
-/
namespace HClient.Bytes

def replacement : Char := Char.ofNat 0xFFFD

/-- How many bytes follow a lead byte, and what the first of them may be. -/
def utf8Lead (b : UInt8) : Option (Nat × UInt8 × UInt8) :=
  if 0xC2 ≤ b ∧ b ≤ 0xDF then some (1, 0x80, 0xBF)
  else if b = 0xE0 then some (2, 0xA0, 0xBF)
  else if b = 0xED then some (2, 0x80, 0x9F)
  else if 0xE1 ≤ b ∧ b ≤ 0xEF then some (2, 0x80, 0xBF)
  else if b = 0xF0 then some (3, 0x90, 0xBF)
  else if 0xF1 ≤ b ∧ b ≤ 0xF3 then some (3, 0x80, 0xBF)
  else if b = 0xF4 then some (3, 0x80, 0x8F)
  else none

/-- The bits of a character with the bits of one more byte. -/
def utf8More (bits : Nat) (b : UInt8) : Nat := bits * 64 + (b.toNat - 0x80)

/-- The character at the front of some bytes, of which so many are owed yet and the next has to be
in a range, and how many of the bytes it takes. -/
def utf8Rest : (owed : Nat) → UInt8 → UInt8 → Nat → List UInt8 → Char × Nat
  | 0, _, _, bits, _ => (Char.ofNat bits, 0)
  | _ + 1, _, _, _, [] => (replacement, 0)
  | owed + 1, low, high, bits, b :: bytes =>
      if low ≤ b ∧ b ≤ high then
        let (c, n) := utf8Rest owed 0x80 0xBF (utf8More bits b) bytes
        (c, n + 1)
      else (replacement, 0)

/-- The bits that a lead byte holds. -/
def leadBits (owed : Nat) (b : UInt8) : Nat :=
  b.toNat - (if owed = 1 then 0xC0 else if owed = 2 then 0xE0 else 0xF0)

/-- The character that a byte begins, and how many of the bytes behind it are its own. -/
def firstChar (b : UInt8) (bytes : List UInt8) : Char × Nat :=
  if b < 0x80 then (Char.ofNat b.toNat, 0)
  else
    match utf8Lead b with
    | none => (replacement, 0)
    | some (owed, low, high) => utf8Rest owed low high (leadBits owed b) bytes

def lossyIn : Nat → List UInt8 → Text
  | 0, _ => []
  | _, [] => []
  | fuel + 1, b :: bytes =>
      (firstChar b bytes).1 :: lossyIn fuel (bytes.drop (firstChar b bytes).2)

def fromUtf8Lossy (bytes : List UInt8) : Text := lossyIn bytes.length bytes

example : fromUtf8Lossy [0x61, 0xE2, 0x82, 0x62, 0xF0, 0x9F, 0x98, 0x80, 0xC3] =
    ['a', replacement, 'b', Char.ofNat 0x1F600, replacement] := by decide +kernel

theorem lossyIn_of_le {fuel : Nat} {bytes : List UInt8} (enough : bytes.length ≤ fuel) :
    lossyIn fuel bytes = fromUtf8Lossy bytes := by
  have steady : ∀ (m n : Nat) (bytes : List UInt8), bytes.length ≤ m → bytes.length ≤ n →
      lossyIn m bytes = lossyIn n bytes := by
    intro m
    induction m with
    | zero =>
        intro n bytes small _
        have empty := List.length_eq_zero_iff.mp (Nat.le_zero.mp small)
        subst empty
        cases n <;> rfl
    | succ m ih =>
        intro n bytes small enough
        cases bytes with
        | nil => cases n <;> rfl
        | cons b bytes =>
            cases n with
            | zero => exact absurd enough (Nat.not_succ_le_zero _)
            | succ n =>
                rw [List.length_cons] at small enough
                have left : (bytes.drop (firstChar b bytes).2).length ≤ bytes.length := by
                  rw [List.length_drop]
                  omega
                rw [lossyIn, lossyIn, ih n _ (by omega) (by omega)]
  exact steady _ _ bytes enough le_rfl

@[simp] theorem fromUtf8Lossy_nil : fromUtf8Lossy [] = [] := rfl

theorem fromUtf8Lossy_cons (b : UInt8) (bytes : List UInt8) : fromUtf8Lossy (b :: bytes) =
    (firstChar b bytes).1 :: fromUtf8Lossy (bytes.drop (firstChar b bytes).2) := by
  change lossyIn (bytes.length + 1) (b :: bytes) = _
  rw [lossyIn, lossyIn_of_le]
  rw [List.length_drop]
  omega

/-! ## ASCII bytes -/

/-- A byte that stands for itself. -/
def IsAscii (b : UInt8) : Prop := b.toNat < 128

instance (b : UInt8) : Decidable (IsAscii b) := inferInstanceAs (Decidable (_ < _))

def asciiChar (b : UInt8) : Char := Char.ofNat b.toNat

theorem lt_iff_isAscii {b : UInt8} : b < 0x80 ↔ IsAscii b := UInt8.lt_iff_toNat_lt

theorem firstChar_ascii {b : UInt8} (ascii : IsAscii b) (bytes : List UInt8) :
    firstChar b bytes = (asciiChar b, 0) := if_pos (lt_iff_isAscii.mpr ascii)

theorem fromUtf8Lossy_cons_ascii {b : UInt8} (ascii : IsAscii b) (bytes : List UInt8) :
    fromUtf8Lossy (b :: bytes) = asciiChar b :: fromUtf8Lossy bytes := by
  rw [fromUtf8Lossy_cons, firstChar_ascii ascii]
  rfl

theorem utf8Rest_append {b : UInt8} (ascii : IsAscii b) {owed : Nat} {low high : UInt8}
    (above : 0x80 ≤ low) (bits : Nat) (bytes after : List UInt8) :
    utf8Rest owed low high bits (bytes ++ b :: after) = utf8Rest owed low high bits bytes := by
  induction owed generalizing low high bits bytes with
  | zero => rfl
  | succ owed ih =>
      cases bytes with
      | nil =>
          refine if_neg fun inside => ?_
          have := UInt8.le_iff_toNat_le.mp (UInt8.le_trans above inside.1)
          exact absurd ascii (Nat.not_lt.mpr this)
      | cons c bytes =>
          rw [List.cons_append, utf8Rest, utf8Rest]
          split
          · rw [ih (by decide)]
          · rfl

theorem utf8Rest_le (owed : Nat) (low high : UInt8) (bits : Nat) (bytes : List UInt8) :
    (utf8Rest owed low high bits bytes).2 ≤ bytes.length := by
  induction owed generalizing low high bits bytes with
  | zero => exact Nat.zero_le _
  | succ owed ih =>
      cases bytes with
      | nil => exact le_rfl
      | cons c bytes =>
          rw [utf8Rest]
          split
          · exact Nat.succ_le_succ (ih _ _ _ _)
          · exact Nat.zero_le _

theorem utf8Lead_above {b low high : UInt8} {owed : Nat} (said : utf8Lead b = some (owed, low, high)) :
    0x80 ≤ low := by
  unfold utf8Lead at said
  split at said
  · cases said; decide
  split at said
  · cases said; decide
  split at said
  · cases said; decide
  split at said
  · cases said; decide
  split at said
  · cases said; decide
  split at said
  · cases said; decide
  split at said
  · cases said; decide
  · cases said

theorem firstChar_append {b : UInt8} (ascii : IsAscii b) (first : UInt8)
    (bytes after : List UInt8) :
    firstChar first (bytes ++ b :: after) = firstChar first bytes := by
  unfold firstChar
  split
  · rfl
  · cases said : utf8Lead first with
    | none => rfl
    | some r => exact utf8Rest_append ascii (utf8Lead_above said) _ _ _

theorem firstChar_le (first : UInt8) (bytes : List UInt8) :
    (firstChar first bytes).2 ≤ bytes.length := by
  unfold firstChar
  split
  · exact Nat.zero_le _
  · cases utf8Lead first with
    | none => exact Nat.zero_le _
    | some r => exact utf8Rest_le _ _ _ _ _

/-- Nothing before an ASCII byte goes on behind it. -/
theorem fromUtf8Lossy_append {b : UInt8} (ascii : IsAscii b) (bytes after : List UInt8) :
    fromUtf8Lossy (bytes ++ b :: after) =
      fromUtf8Lossy bytes ++ asciiChar b :: fromUtf8Lossy after := by
  induction len : bytes.length using Nat.strong_induction_on generalizing bytes with
  | _ n ih =>
      cases bytes with
      | nil => exact fromUtf8Lossy_cons_ascii ascii after
      | cons first bytes =>
          subst len
          rw [List.cons_append, fromUtf8Lossy_cons, fromUtf8Lossy_cons, firstChar_append ascii,
            List.drop_append_of_le_length (firstChar_le first bytes), List.cons_append]
          refine congrArg _ (ih _ ?_ _ rfl)
          rw [List.length_drop, List.length_cons]
          omega

/-! ## The other bytes -/

/-- The least and the most that the bits of a character may come to. -/
def utf8Least (owed : Nat) (low : UInt8) (bits : Nat) : Nat :=
  match owed with
  | 0 => bits
  | owed + 1 => (bits * 64 + (low.toNat - 0x80)) * 64 ^ owed

def utf8Most (owed : Nat) (high : UInt8) (bits : Nat) : Nat :=
  match owed with
  | 0 => bits
  | owed + 1 => (bits * 64 + (high.toNat - 0x80)) * 64 ^ owed + (64 ^ owed - 1)

theorem utf8Least_succ {owed : Nat} {low b : UInt8} {bits : Nat} (le : low ≤ b) :
    utf8Least (owed + 1) low bits ≤ utf8Least owed 0x80 (utf8More bits b) := by
  have le := UInt8.le_iff_toNat_le.mp le
  unfold utf8Least utf8More
  cases owed with
  | zero =>
      dsimp only
      omega
  | succ owed =>
      dsimp only
      rw [Nat.pow_succ', ← Nat.mul_assoc]
      refine Nat.mul_le_mul_right _ ?_
      change _ ≤ _ + (128 - 128)
      omega

theorem utf8Most_succ {owed : Nat} {high b : UInt8} {bits : Nat} (le : b ≤ high) :
    utf8Most owed 0xBF (utf8More bits b) ≤ utf8Most (owed + 1) high bits := by
  have le := UInt8.le_iff_toNat_le.mp le
  unfold utf8Most utf8More
  cases owed with
  | zero =>
      dsimp only
      omega
  | succ owed =>
      dsimp only
      have some_ : 0 < 64 ^ owed := Nat.pow_pos (by decide)
      have whole : 64 ^ (owed + 1) = 64 * 64 ^ owed := Nat.pow_succ'
      have bound : (bits * 64 + (b.toNat - 0x80)) * (64 * 64 ^ owed) ≤
          (bits * 64 + (high.toNat - 0x80)) * (64 * 64 ^ owed) :=
        Nat.mul_le_mul_right _ (by omega)
      have split : ((bits * 64 + (b.toNat - 0x80)) * 64 + (191 - 128)) * 64 ^ owed =
          (bits * 64 + (b.toNat - 0x80)) * (64 * 64 ^ owed) + 63 * 64 ^ owed := by ring
      change (_ * 64 + (191 - 128)) * 64 ^ owed + _ ≤ _
      rw [split, whole]
      omega

theorem utf8Rest_cases {owed : Nat} {low high : UInt8} {bits : Nat} (bytes : List UInt8) :
    (utf8Rest owed low high bits bytes).1 = replacement ∨
      ∃ v, utf8Least owed low bits ≤ v ∧ v ≤ utf8Most owed high bits ∧
        (utf8Rest owed low high bits bytes).1 = Char.ofNat v := by
  induction owed generalizing low high bits bytes with
  | zero => exact .inr ⟨bits, le_rfl, le_rfl, rfl⟩
  | succ owed ih =>
      cases bytes with
      | nil => exact .inl rfl
      | cons b bytes =>
          rw [utf8Rest]
          split
          next inside =>
            obtain same | ⟨v, least, most, same⟩ := @ih 0x80 0xBF (utf8More bits b) bytes
            · exact .inl same
            · exact .inr ⟨v, (utf8Least_succ inside.1).trans least,
                most.trans (utf8Most_succ inside.2), same⟩
          next => exact .inl rfl

theorem high_ofNat {v : Nat} (high : 128 ≤ v) (valid : v < 0xD800 ∨ 0xE000 ≤ v ∧ v < 0x110000) :
    128 ≤ (Char.ofNat v).toNat := by
  rw [Char.toNat_ofNat, if_pos]
  · exact high
  · unfold Nat.isValidChar
    omega

/-- The bits of characters past ASCII that are not surrogates. -/
def Utf8Spans (least most : Nat) : Prop :=
  128 ≤ least ∧ (most < 0xD800 ∨ 0xE000 ≤ least ∧ most < 0x110000)

instance (least most : Nat) : Decidable (Utf8Spans least most) :=
  inferInstanceAs (Decidable (_ ∧ _))

theorem utf8Lead_spans {b low high : UInt8} {owed : Nat}
    (said : utf8Lead b = some (owed, low, high)) :
    Utf8Spans (utf8Least owed low (leadBits owed b)) (utf8Most owed high (leadBits owed b)) := by
  have all : ∀ n < 256, ∀ r ∈ utf8Lead (UInt8.ofNat n),
      Utf8Spans (utf8Least r.1 r.2.1 (leadBits r.1 (UInt8.ofNat n)))
        (utf8Most r.1 r.2.2 (leadBits r.1 (UInt8.ofNat n))) := by
    decide +kernel
  have here := all b.toNat (UInt8.toNat_lt b)
  rw [UInt8.ofNat_toNat] at here
  exact here _ said

/-- A character that stands for no ASCII byte is no ASCII character. -/
theorem high_firstChar {b : UInt8} (high : ¬ IsAscii b) (bytes : List UInt8) :
    128 ≤ (firstChar b bytes).1.toNat := by
  have replaced : 128 ≤ replacement.toNat := by decide
  unfold firstChar
  rw [if_neg fun low => high (lt_iff_isAscii.mp low)]
  cases said : utf8Lead b with
  | none => exact replaced
  | some r =>
      obtain ⟨owed, low, top⟩ := r
      obtain ⟨past, valid⟩ := utf8Lead_spans said
      dsimp only
      obtain same | ⟨v, least, most, same⟩ :=
        @utf8Rest_cases owed low top (leadBits owed b) bytes
      · rw [same]
        exact replaced
      · rw [same]
        exact high_ofNat (past.trans least) (by omega)

theorem utf8Rest_taken {owed : Nat} {low high : UInt8} (above : 0x80 ≤ low) {bits : Nat}
    {bytes : List UInt8} {b : UInt8}
    (taken : b ∈ bytes.take (utf8Rest owed low high bits bytes).2) : ¬ IsAscii b := by
  induction owed generalizing low high bits bytes with
  | zero => cases taken
  | succ owed ih =>
      cases bytes with
      | nil => cases taken
      | cons c bytes =>
          rw [utf8Rest] at taken
          split at taken
          next inside =>
            obtain rfl | taken := List.mem_cons.mp taken
            · exact Nat.not_lt.mpr (UInt8.le_iff_toNat_le.mp (UInt8.le_trans above inside.1))
            · exact ih (by decide) taken
          next => cases taken

theorem firstChar_taken {first b : UInt8} {bytes : List UInt8}
    (taken : b ∈ bytes.take (firstChar first bytes).2) : ¬ IsAscii b := by
  unfold firstChar at taken
  split at taken
  · cases taken
  · split at taken
    · cases taken
    next said => exact utf8Rest_taken (utf8Lead_above said) taken

theorem toNat_asciiChar {b : UInt8} (ascii : IsAscii b) : (asciiChar b).toNat = b.toNat := by
  unfold IsAscii at ascii
  rw [asciiChar, Char.toNat_ofNat, if_pos]
  unfold Nat.isValidChar
  omega

theorem asciiChar_inj {a b : UInt8} (ha : IsAscii a) (hb : IsAscii b)
    (same : asciiChar a = asciiChar b) : a = b := by
  have := congrArg Char.toNat same
  rw [toNat_asciiChar ha, toNat_asciiChar hb] at this
  exact UInt8.toNat_inj.mp this

theorem firstChar_eq_asciiChar {a : UInt8} (ascii : IsAscii a) (b : UInt8) (bytes : List UInt8) :
    (firstChar b bytes).1 = asciiChar a ↔ b = a := by
  constructor
  · intro same
    by_cases low : IsAscii b
    · rw [firstChar_ascii low] at same
      exact asciiChar_inj low ascii same
    · have high := high_firstChar low bytes
      rw [same, toNat_asciiChar ascii] at high
      exact absurd ascii (Nat.not_lt.mpr high)
  · rintro rfl
    rw [firstChar_ascii ascii]

theorem head_fromUtf8Lossy {a : UInt8} (ascii : IsAscii a) (bytes : List UInt8) :
    (fromUtf8Lossy bytes).head? = some (asciiChar a) ↔ bytes.head? = some a := by
  cases bytes with
  | nil => simp
  | cons b bytes =>
      rw [fromUtf8Lossy_cons, List.head?_cons, List.head?_cons, Option.some_inj, Option.some_inj]
      exact firstChar_eq_asciiChar ascii b bytes

/-- An ASCII character is read where its byte is, and nowhere else. -/
theorem asciiChar_mem_fromUtf8Lossy {b : UInt8} (ascii : IsAscii b) (bytes : List UInt8) :
    asciiChar b ∈ fromUtf8Lossy bytes ↔ b ∈ bytes := by
  induction len : bytes.length using Nat.strong_induction_on generalizing bytes with
  | _ n ih =>
      cases bytes with
      | nil => simp
      | cons first bytes =>
          have shorter : (bytes.drop (firstChar first bytes).2).length < n := by
            rw [List.length_drop, ← len, List.length_cons]
            omega
          rw [fromUtf8Lossy_cons, List.mem_cons, ih _ shorter _ rfl, List.mem_cons]
          by_cases low : IsAscii first
          · rw [firstChar_ascii low]
            exact or_congr_left ⟨asciiChar_inj ascii low, congrArg _⟩
          · have other : asciiChar b ≠ (firstChar first bytes).1 := by
              intro same
              have past := high_firstChar low bytes
              rw [← same, toNat_asciiChar ascii] at past
              exact absurd ascii (Nat.not_lt.mpr past)
            have apart : b ≠ first := fun same => low (same ▸ ascii)
            have whole : b ∈ bytes ↔ b ∈ bytes.drop (firstChar first bytes).2 := by
              conv_lhs => rw [← List.take_append_drop (firstChar first bytes).2 bytes]
              rw [List.mem_append]
              exact or_iff_right fun taken => firstChar_taken taken ascii
            rw [or_iff_right other, or_iff_right apart, whole]

/-- What is read as ASCII characters is their bytes. -/
theorem fromUtf8Lossy_eq_ascii {bytes asc : List UInt8} (ascii : ∀ b ∈ asc, IsAscii b) :
    fromUtf8Lossy bytes = asc.map asciiChar ↔ bytes = asc := by
  induction asc generalizing bytes with
  | nil =>
      cases bytes with
      | nil => simp
      | cons b bytes => simp [fromUtf8Lossy_cons]
  | cons a asc ih =>
      have low := ascii a List.mem_cons_self
      cases bytes with
      | nil => simp
      | cons b bytes =>
          by_cases first : IsAscii b
          · rw [fromUtf8Lossy_cons_ascii first, List.map_cons, List.cons.injEq, List.cons.injEq,
              ih fun c member => ascii c (List.mem_cons_of_mem _ member)]
            exact and_congr_left fun _ => ⟨asciiChar_inj first low, congrArg _⟩
          · rw [fromUtf8Lossy_cons, List.map_cons, List.cons.injEq, List.cons.injEq]
            have other : (firstChar b bytes).1 ≠ asciiChar a := by
              intro same
              have past := high_firstChar first bytes
              rw [same, toNat_asciiChar low] at past
              exact absurd low (Nat.not_lt.mpr past)
            exact ⟨fun h => absurd h.1 other, fun h => absurd (h.1 ▸ low) first⟩

end HClient.Bytes
