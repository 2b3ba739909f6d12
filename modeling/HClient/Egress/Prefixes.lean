import HClient.Core.Address
import HClient.Egress.Rules

/-!
# Prefixes of addresses

An address as its bits, and that the comparison by whole octets and a mask compares the first of
them. None of its slices, indices and shifts can fail on two addresses of a family.
-/
namespace HClient.Egress

/-- The bits of an octet, the highest first. -/
def octetBits (o : Nat) : List Bool := (List.range 8).map fun i => o.testBit (7 - i)

def bitsOf (os : List Nat) : List Bool := os.flatMap octetBits

/-- The bits of an address: 32 of them, or 128. -/
def addressBits (ip : IpAddr) : List Bool := bitsOf (octets ip)

/-- `same_prefix` as it is computed: there is no answer where a slice, an index or a shift
fails. -/
def samePrefixChecked (net host : List Nat) (len : Nat) : Option Bool :=
  let whole := len / 8
  let bits := len % 8
  if net.length < whole ∨ host.length < whole then none
  else if net.take whole ≠ host.take whole then some false
  else if bits = 0 then some true
  else if 8 ≤ 8 - bits then none
  else
    let mask := 255 <<< (8 - bits) % 256
    match net[whole]?, host[whole]? with
    | some n, some h => some (n &&& mask == h &&& mask)
    | _, _ => none

/-- Addresses of one family. -/
inductive SameFamily : IpAddr → IpAddr → Prop
  | v4 (os os' : List Nat) : SameFamily (.v4 os) (.v4 os')
  | v6 (gs gs' : List Nat) : SameFamily (.v6 gs) (.v6 gs')

/-- The first bits of a network. -/
def InSubnet (net : IpAddr) (len : Nat) (ip : IpAddr) : Prop :=
  SameFamily net ip ∧ (addressBits net).take len = (addressBits ip).take len

/-- How many bits an address has. -/
def width : IpAddr → Nat
  | .v4 _ => 32
  | .v6 _ => 128

section
variable {os os' : List Nat} {o o' k w len : Nat}

theorem length_octetBits (o : Nat) : (octetBits o).length = 8 := by
  rw [octetBits, List.length_map, List.length_range]

theorem length_bitsOf (os : List Nat) : (bitsOf os).length = 8 * os.length := by
  induction os with
  | nil => rfl
  | cons o os ih =>
      rw [bitsOf, List.flatMap_cons, List.length_append, length_octetBits, ← bitsOf, ih,
        List.length_cons]
      omega

theorem take_octetBits_eq_iff (few : k ≤ 8) : (octetBits o).take k = (octetBits o').take k ↔
    ∀ i < k, o.testBit (7 - i) = o'.testBit (7 - i) := by
  rw [octetBits, octetBits, ← List.map_take, ← List.map_take, List.take_range, Nat.min_eq_left few,
    List.map_inj_left]
  simp only [List.mem_range]

theorem octetBits_eq_iff (small : o < 256) (small' : o' < 256) :
    octetBits o = octetBits o' ↔ o = o' := by
  constructor
  · intro same
    have bits := (take_octetBits_eq_iff (Nat.le_refl 8)).mp (congrArg (List.take 8) same)
    apply Nat.eq_of_testBit_eq
    intro i
    by_cases low : i < 8
    · have bit := bits (7 - i) (by omega)
      have place : 7 - (7 - i) = i := by omega
      rwa [place] at bit
    · have power : 2 ^ 8 ≤ 2 ^ i := Nat.pow_le_pow_right Nat.two_pos (Nat.le_of_not_lt low)
      rw [Nat.testBit_lt_two_pow (lt_of_lt_of_le small power),
        Nat.testBit_lt_two_pow (lt_of_lt_of_le small' power)]
  · intro same
    rw [same]

theorem bitsOf_eq_iff (small : ∀ o ∈ os, o < 256) (small' : ∀ o ∈ os', o < 256)
    (length : os.length = os'.length) : bitsOf os = bitsOf os' ↔ os = os' := by
  constructor
  · intro same
    induction os generalizing os' with
    | nil => exact (List.length_eq_zero_iff.mp length.symm).symm
    | cons o os ih =>
        cases os' with
        | nil => cases length
        | cons o' os' =>
            rw [bitsOf, bitsOf, List.flatMap_cons, List.flatMap_cons] at same
            obtain ⟨first, rest⟩ := List.append_inj same (by simp only [length_octetBits])
            rw [(octetBits_eq_iff (small o List.mem_cons_self) (small' o' List.mem_cons_self)).mp first,
              ih (fun o member => small o (List.mem_cons_of_mem _ member))
                (fun o member => small' o (List.mem_cons_of_mem _ member))
                (Nat.succ.inj length) rest]
  · intro same
    rw [same]

/-- The first bits are those of the whole octets, and of the next one the first few. -/
theorem take_bitsOf (whole : w ≤ os.length) (k : Nat) :
    (bitsOf os).take (8 * w + k) = bitsOf (os.take w) ++ (bitsOf (os.drop w)).take k := by
  have split : bitsOf os = bitsOf (os.take w) ++ bitsOf (os.drop w) := by
    rw [bitsOf, bitsOf, bitsOf, ← List.flatMap_append, List.take_append_drop]
  have length : (bitsOf (os.take w)).length = 8 * w := by
    rw [length_bitsOf, List.length_take, Nat.min_eq_left whole]
  rw [split, List.take_append, length, List.take_of_length_le (by omega)]
  congr 2
  omega

/-- The mask of so many bits has those ones and no others. -/
theorem testBit_mask (k i : Nat) :
    (255 <<< (8 - k) % 256).testBit i = decide (8 - k ≤ i ∧ i < 8) := by
  have ones : (255 : Nat) = 2 ^ 8 - 1 := rfl
  have octet : (256 : Nat) = 2 ^ 8 := rfl
  rw [octet, Nat.testBit_mod_two_pow, Nat.testBit_shiftLeft, ones, Nat.testBit_two_pow_sub_one]
  by_cases low : i < 8
  · by_cases high : 8 - k ≤ i
    · have inside : i - (8 - k) < 8 := by omega
      simp [low, high, inside]
    · simp [high]
  · simp [low]

theorem masked_eq_iff (few : k ≤ 8) :
    o &&& 255 <<< (8 - k) % 256 = o' &&& 255 <<< (8 - k) % 256 ↔
      (octetBits o).take k = (octetBits o').take k := by
  rw [take_octetBits_eq_iff few]
  constructor
  · intro same i below
    have bit := congrArg (fun n => n.testBit (7 - i)) same
    have inside : decide (8 - k ≤ 7 - i ∧ 7 - i < 8) = true := by
      apply decide_eq_true
      omega
    rwa [Nat.testBit_and, Nat.testBit_and, testBit_mask, inside, Bool.and_true,
      Bool.and_true] at bit
  · intro bits
    apply Nat.eq_of_testBit_eq
    intro i
    rw [Nat.testBit_and, Nat.testBit_and, testBit_mask]
    by_cases inside : 8 - k ≤ i ∧ i < 8
    · have bit := bits (7 - i) (by omega)
      have place : 7 - (7 - i) = i := by omega
      rw [place] at bit
      rw [bit]
    · rw [decide_eq_false inside, Bool.and_false, Bool.and_false]

theorem take_bitsOf_drop (short : w < os.length) (few : k ≤ 8) :
    (bitsOf (os.drop w)).take k = (octetBits (os.getD w 0)).take k := by
  have next : os.drop w = os.getD w 0 :: os.drop (w + 1) := by
    rw [List.getD_eq_getElem _ _ short, List.drop_eq_getElem_cons short]
  rw [next, bitsOf, List.flatMap_cons, List.take_append_of_le_length]
  rw [length_octetBits]
  exact few

/-- Octets and a mask compare the first bits. -/
theorem samePrefix_iff (small : ∀ o ∈ os, o < 256) (small' : ∀ o ∈ os', o < 256)
    (length : os.length = os'.length) (within : len ≤ 8 * os.length) :
    samePrefix os os' len = true ↔ (bitsOf os).take len = (bitsOf os').take len := by
  have whole : len / 8 ≤ os.length := by omega
  have cut : len = 8 * (len / 8) + len % 8 := (Nat.div_add_mod len 8).symm
  have lengths : (bitsOf (os.take (len / 8))).length = (bitsOf (os'.take (len / 8))).length := by
    rw [length_bitsOf, length_bitsOf, List.length_take, List.length_take, length]
  have front : bitsOf (os.take (len / 8)) = bitsOf (os'.take (len / 8)) ↔
      os.take (len / 8) = os'.take (len / 8) :=
    bitsOf_eq_iff (fun o member => small o (List.mem_of_mem_take member))
      (fun o member => small' o (List.mem_of_mem_take member))
      (by rw [List.length_take, List.length_take, length])
  have bits : (bitsOf os).take len = (bitsOf os').take len ↔
      os.take (len / 8) = os'.take (len / 8) ∧
        (bitsOf (os.drop (len / 8))).take (len % 8) = (bitsOf (os'.drop (len / 8))).take (len % 8) := by
    conv_lhs => rw [cut, take_bitsOf whole, take_bitsOf (length ▸ whole)]
    rw [← front]
    constructor
    · exact fun same => List.append_inj same lengths
    · rintro ⟨first, second⟩
      rw [first, second]
  rw [bits]
  unfold samePrefix
  dsimp only
  split
  next other => exact ⟨fun no => absurd no Bool.false_ne_true, fun same => absurd same.1 other⟩
  next same =>
    rw [not_not] at same
    split
    next none =>
      rw [none, List.take_zero, List.take_zero]
      exact ⟨fun _ => ⟨same, rfl⟩, fun _ => rfl⟩
    next some_ =>
      have short : len / 8 < os.length := by omega
      have few : len % 8 ≤ 8 := by omega
      rw [beq_iff_eq, masked_eq_iff few, take_bitsOf_drop short few,
        take_bitsOf_drop (length ▸ short) few]
      exact ⟨fun eq => ⟨same, eq⟩, fun eq => eq.2⟩

theorem samePrefixChecked_eq (length : os.length = os'.length) (within : len ≤ 8 * os.length) :
    samePrefixChecked os os' len = some (samePrefix os os' len) := by
  have whole : ¬ (os.length < len / 8 ∨ os'.length < len / 8) := by omega
  unfold samePrefixChecked samePrefix
  dsimp only
  rw [if_neg whole]
  split
  · rfl
  · split
    · rfl
    next some_ =>
      have short : len / 8 < os.length := by omega
      have shift : ¬ 8 ≤ 8 - len % 8 := by omega
      rw [if_neg shift, List.getElem?_eq_getElem short, List.getElem?_eq_getElem (length ▸ short),
        List.getD_eq_getElem _ _ short, List.getD_eq_getElem _ _ (length ▸ short)]

/-- The octets of an address are octets, and as many as its family has. -/
theorem octets_sized {ip : IpAddr} (sized : ip.Sized) :
    8 * (octets ip).length = width ip ∧ ∀ o ∈ octets ip, o < 256 := by
  cases ip with
  | v4 os =>
      refine ⟨?_, sized.2⟩
      have four : os.length = 4 := sized.1
      change 8 * os.length = 32
      rw [four]
  | v6 gs =>
      have eight : gs.length = 8 := sized.1
      constructor
      · change 8 * (gs.flatMap fun g => [g / 256, g % 256]).length = 128
        rw [List.length_flatMap]
        simp [eight]
      · intro o member
        obtain ⟨g, there, member⟩ := List.mem_flatMap.mp member
        have small : g < 65536 := sized.2 g there
        simp only [List.mem_cons, List.not_mem_nil, or_false] at member
        rcases member with rfl | rfl <;> omega

theorem width_eq {net ip : IpAddr} (family : SameFamily net ip) : width net = width ip := by
  cases family <;> rfl

theorem samePrefix_octets {net ip : IpAddr} (sized : net.Sized) (sized' : ip.Sized)
    (family : SameFamily net ip) (within : len ≤ width net) :
    samePrefix (octets net) (octets ip) len = true ↔
      (addressBits net).take len = (addressBits ip).take len := by
  obtain ⟨length, small⟩ := octets_sized sized
  obtain ⟨length', small'⟩ := octets_sized sized'
  have same := width_eq family
  exact samePrefix_iff small small' (by omega) (by omega)

end
end HClient.Egress
