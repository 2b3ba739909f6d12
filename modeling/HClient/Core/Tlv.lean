import HClient.Core.Varint

/-!
# Type, length, value

Two variable-length integers, the second of which says how many bytes follow. What stands at the
front of a stream is a whole one, or not there yet.
-/
namespace HClient.Tlv

variable {α : Type}

/-- The type, the value and the size of the whole one at the front. -/
def front (bytes : List UInt8) : Option (Nat × List UInt8 × Nat) :=
  (Varint.read bytes).bind fun (kind, kindLen) =>
    (Varint.read (bytes.drop kindLen)).bind fun (len, lenLen) =>
      let start := kindLen + lenLen
      if bytes.length < start + len then none
      else some (kind, (bytes.drop start).take len, start + len)

/-- These bytes and no more are one of a type with a value, its integers in any form. -/
def Spells (bytes : List UInt8) (kind : Nat) (value : List UInt8) : Prop :=
  ∃ first second, bytes = first ++ second ++ value ∧ Varint.Spells first kind ∧
    Varint.Spells second value.length

theorem front_eq_some {bytes : List UInt8} {kind n : Nat} {value : List UInt8} :
    front bytes = some (kind, value, n) ↔
      ∃ kindLen lenLen, Varint.read bytes = some (kind, kindLen) ∧
        Varint.read (bytes.drop kindLen) = some (value.length, lenLen) ∧
        n = kindLen + lenLen + value.length ∧ n ≤ bytes.length ∧
        value = (bytes.drop (kindLen + lenLen)).take value.length := by
  constructor
  · intro said
    obtain ⟨⟨kind', kindLen⟩, first, said⟩ := Option.bind_eq_some_iff.mp said
    obtain ⟨⟨len, lenLen⟩, second, said⟩ := Option.bind_eq_some_iff.mp said
    dsimp only at said second
    split at said
    next => cases said
    next enough =>
      cases said
      have length : ((bytes.drop (kindLen + lenLen)).take len).length = len := by
        rw [List.length_take, List.length_drop]
        omega
      refine ⟨kindLen, lenLen, first, ?_, ?_, by omega, ?_⟩
      · rw [length]; exact second
      · rw [length]
      · rw [length]
  · rintro ⟨kindLen, lenLen, first, second, rfl, enough, slice⟩
    unfold front
    rw [first, Option.bind_some]
    dsimp only
    rw [second, Option.bind_some]
    dsimp only
    rw [if_neg (by omega), ← slice]

theorem front_settles : SettlesSome front := by
  refine Settles.of_some fun bytes r said more => ?_
  obtain ⟨kind, value, n⟩ := r
  obtain ⟨kindLen, lenLen, first, second, size, enough, slice⟩ := front_eq_some.mp said
  have fits := Varint.read_fits first
  refine front_eq_some.mpr ⟨kindLen, lenLen, Varint.read_settles.some_of first more, ?_, size,
    enough.trans (by rw [List.length_append]; omega), ?_⟩
  · rw [List.drop_append_of_le_length fits]
    exact Varint.read_settles.some_of second more
  · have there : kindLen + lenLen ≤ bytes.length := by omega
    rw [List.drop_append_of_le_length there,
      List.take_append_of_le_length (by rw [List.length_drop]; omega)]
    exact slice

/-- Reading items one after another, each what a type and a value say. -/
def framer (item : Nat → List UInt8 → α) : Framer UInt8 α where
  take bytes := (front bytes).map fun (kind, value, n) => (item kind value, n)
  settles := by
    refine Settles.of_some fun bytes r said more => ?_
    obtain ⟨whole, there, rfl⟩ := Option.map_eq_some_iff.mp said
    rw [front_settles.some_of there, Option.map_some]
  fits said := by
    obtain ⟨⟨kind, value, n⟩, there, same⟩ := Option.map_eq_some_iff.mp said
    cases same
    obtain ⟨-, -, -, -, -, enough, -⟩ := front_eq_some.mp there
    exact enough
  progress said := by
    obtain ⟨⟨kind, value, n⟩, there, same⟩ := Option.map_eq_some_iff.mp said
    cases same
    obtain ⟨kindLen, lenLen, first, -, size, -⟩ := front_eq_some.mp there
    have := Varint.read_pos first
    omega

theorem take_framer (item : Nat → List UInt8 → α) (bytes : List UInt8) :
    (framer item).take bytes = (front bytes).map fun (kind, value, n) => (item kind value, n) := rfl

/-- A whole one is read as itself. -/
theorem front_of_spells {bytes : List UInt8} {kind : Nat} {value : List UInt8}
    (spells : Spells bytes kind value) : front bytes = some (kind, value, bytes.length) := by
  obtain ⟨first, second, rfl, one, two⟩ := spells
  refine front_eq_some.mpr ⟨first.length, second.length, ?_, ?_, ?_, le_rfl, ?_⟩
  · rw [List.append_assoc]
    exact Varint.read_settles.some_of one _
  · rw [List.append_assoc, List.drop_left]
    exact Varint.read_settles.some_of two _
  · simp only [List.length_append]
  · rw [← List.length_append, List.drop_left, List.take_length]

/-- What is read as a whole one is one. -/
theorem spells_of_front {bytes : List UInt8} {kind n : Nat} {value : List UInt8}
    (said : front bytes = some (kind, value, n)) : Spells (bytes.take n) kind value := by
  obtain ⟨kindLen, lenLen, first, second, size, enough, slice⟩ := front_eq_some.mp said
  refine ⟨bytes.take kindLen, (bytes.drop kindLen).take lenLen, ?_, Varint.spells_take first,
    Varint.spells_take second⟩
  conv_rhs => rw [slice]
  rw [size, List.take_add, List.take_add]

end HClient.Tlv
