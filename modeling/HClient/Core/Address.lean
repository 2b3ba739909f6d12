import HClient.Core.Net

/-!
# What reads as an address

The sizes of an address that is read, that it is read the same in either case, and the characters
it can begin with.
-/
namespace HClient.IpAddr

open Text (toAsciiLowercase)

/-! ## Sizes -/

section Sizes
variable {s rest : Text} {n index left : Nat} {os gs : List Nat}

theorem readNumber_lt {radix maxDigits bound : Nat} {zero : Bool}
    (read : readNumber radix maxDigits zero bound s = some (n, rest)) : n < bound := by
  unfold readNumber at read
  dsimp only at read
  split_ifs at read with _ _ small
  cases read
  exact small

theorem readSeparator_some {α : Type} {sep : Char} {inner : Text → Option (α × Text)} {a : α}
    (read : readSeparator sep index inner s = some (a, rest)) : ∃ t, inner t = some (a, rest) := by
  unfold readSeparator at read
  split at read
  · exact ⟨_, read⟩
  · split at read
    · exact ⟨_, read⟩
    · cases read
  · cases read

theorem readOctet_lt (read : readOctet index s = some (n, rest)) : n < 256 := by
  obtain ⟨t, read⟩ := readSeparator_some read
  exact readNumber_lt read

theorem readIpv4Addr_some (read : readIpv4Addr s = some (os, rest)) :
    os.length = 4 ∧ ∀ o ∈ os, o < 256 := by
  unfold readIpv4Addr at read
  simp only [Option.bind_eq_bind, Option.bind_eq_some_iff, Prod.exists] at read
  obtain ⟨a, _, first, b, _, second, c, _, third, d, _, fourth, taken⟩ := read
  cases taken
  refine ⟨rfl, ?_⟩
  intro o member
  simp only [List.mem_cons, List.not_mem_nil, or_false] at member
  rcases member with rfl | rfl | rfl | rfl
  · exact readOctet_lt first
  · exact readOctet_lt second
  · exact readOctet_lt third
  · exact readOctet_lt fourth

/-- Never more groups than there is room for, each of two octets. -/
theorem readGroups_sized (left index : Nat) (s : Text) :
    (readGroups left index s).1.length ≤ left ∧ ∀ g ∈ (readGroups left index s).1, g < 65536 := by
  induction left generalizing index s with
  | zero => exact ⟨Nat.le_refl _, fun g member => by cases member⟩
  | succ left ih =>
      unfold readGroups
      dsimp only
      split
      next a b c d rest embedded =>
        split_ifs at embedded with room
        obtain ⟨t, read⟩ := readSeparator_some embedded
        obtain ⟨-, small⟩ := readIpv4Addr_some read
        simp only [List.mem_cons, List.not_mem_nil, or_false, forall_eq_or_imp, forall_eq] at small
        refine ⟨Nat.succ_le_succ room, ?_⟩
        intro g member
        simp only [List.mem_cons, List.not_mem_nil, or_false] at member
        rcases member with rfl | rfl <;> omega
      · split
        · exact ⟨Nat.zero_le _, fun g member => by cases member⟩
        next group rest read =>
          obtain ⟨t, read⟩ := readSeparator_some read
          obtain ⟨short, small⟩ := ih (index + 1) rest
          refine ⟨Nat.succ_le_succ short, ?_⟩
          intro g member
          rcases List.mem_cons.mp member with rfl | member
          · exact readNumber_lt read
          · exact small g member

theorem readIpv6Addr_some (read : readIpv6Addr s = some (gs, rest)) :
    gs.length = 8 ∧ ∀ g ∈ gs, g < 65536 := by
  unfold readIpv6Addr at read
  have head := readGroups_sized 8 0 s
  generalize readGroups 8 0 s = front at head read
  obtain ⟨front, embedded, after⟩ := front
  dsimp only at head read
  split at read
  next full =>
    cases read
    exact ⟨full, head.2⟩
  next short =>
    split at read
    · cases read
    · split at read
      next behind =>
        have tail := readGroups_sized (7 - front.length) 0 behind
        generalize readGroups (7 - front.length) 0 behind = back at tail read
        obtain ⟨back, embedded', after'⟩ := back
        dsimp only at tail read
        cases read
        constructor
        · rw [List.length_append, List.length_append, List.length_replicate]
          omega
        · intro g member
          rw [List.mem_append, List.mem_append] at member
          rcases member with (member | member) | member
          · exact head.2 g member
          · rw [List.eq_of_mem_replicate member]
            decide
          · exact tail.2 g member
      · cases read

/-- Four octets, or eight groups of two. -/
def Sized : IpAddr → Prop
  | .v4 octets => octets.length = 4 ∧ ∀ o ∈ octets, o < 256
  | .v6 groups => groups.length = 8 ∧ ∀ g ∈ groups, g < 65536

theorem sized_parse {ip : IpAddr} (read : parse s = some ip) : ip.Sized := by
  unfold parse at read
  split at read
  next octets rest four =>
    split_ifs at read
    cases read
    exact readIpv4Addr_some four
  · split at read
    next groups rest six =>
      split_ifs at read
      cases read
      exact readIpv6Addr_some six
    · cases read

end Sizes

/-! ## Either case -/

section Case
variable {α : Type} {s : Text}

/-- What a reader answers, with the rest in lower case. -/
def lowered (r : α × Text) : α × Text := (r.1, toAsciiLowercase r.2)

/-- A reader that reads the same in either case. -/
def Caseless (inner : Text → Option (α × Text)) : Prop :=
  ∀ s, inner (toAsciiLowercase s) = (inner s).map lowered

theorem toDigit_toLower (radix : Nat) (c : Char) : toDigit radix c.toLower = toDigit radix c := by
  by_cases upper : c.isUpper = true
  · have code : c.toNat = c.val.toNat := rfl
    have bounds : 'A'.val.toNat = 65 ∧ 'Z'.val.toNat = 90 := ⟨rfl, rfl⟩
    simp only [Char.isUpper, decide_eq_true_eq, UInt32.le_iff_toNat_le,
      ge_iff_le] at upper
    have each : ∀ i : Fin 26, toDigit radix (Char.ofNat (65 + i)).toLower =
        toDigit radix (Char.ofNat (65 + i)) := by
      intro i
      fin_cases i <;> rfl
    have found := each ⟨c.toNat - 65, by omega⟩
    have same : 65 + (c.toNat - 65) = c.toNat := by omega
    dsimp only at found
    rwa [same, Char.ofNat_toNat] at found
  · rw [Char.toLower_eq_of_not_isUpper upper]

theorem head?_toAsciiLowercase {c : Char} (other : c.isAlpha = false) :
    (toAsciiLowercase s).head? = some c ↔ s.head? = some c := by
  cases s with
  | nil => rfl
  | cons d s =>
      change some d.toLower = some c ↔ some d = some c
      rw [Option.some.injEq, Option.some.injEq, Text.toLower_eq_iff other]

theorem readNumber_caseless (radix maxDigits : Nat) (zero : Bool) (bound : Nat) :
    Caseless (readNumber radix maxDigits zero bound) := by
  intro s
  have digit : (fun c => (toDigit radix c).isSome) ∘ Char.toLower =
      fun c => (toDigit radix c).isSome := by
    funext c
    exact congrArg Option.isSome (toDigit_toLower radix c)
  have value : toDigit radix ∘ Char.toLower = toDigit radix := by
    funext c
    exact toDigit_toLower radix c
  have digits : ((toAsciiLowercase s).takeWhile fun c => (toDigit radix c).isSome).filterMap
      (toDigit radix) =
      (s.takeWhile fun c => (toDigit radix c).isSome).filterMap (toDigit radix) := by
    rw [toAsciiLowercase, List.takeWhile_map, digit, List.filterMap_map, value]
  unfold readNumber
  dsimp only
  simp only [digits, head?_toAsciiLowercase (c := '0') (by decide)]
  split_ifs
  · rfl
  · rfl
  · rw [Option.map_some, lowered, toAsciiLowercase, toAsciiLowercase, List.map_drop]
  · rfl

theorem readSeparator_caseless {sep : Char} (other : sep.isAlpha = false)
    {inner : Text → Option (α × Text)} (caseless : Caseless inner) (index : Nat) :
    Caseless (readSeparator sep index inner) := by
  intro s
  cases index with
  | zero => exact caseless s
  | succ index =>
      cases s with
      | nil => rfl
      | cons c s =>
          change (if c.toLower = sep then inner (toAsciiLowercase s) else none) =
            (if c = sep then inner s else none).map lowered
          simp only [Text.toLower_eq_iff other, caseless s]
          split <;> rfl

theorem readOctet_caseless (index : Nat) : Caseless (readOctet index) :=
  readSeparator_caseless (by decide) (readNumber_caseless 10 3 false 256) index

theorem readIpv4Addr_caseless : Caseless readIpv4Addr := by
  intro s
  have step : ∀ {β : Type} (r : Option (Nat × Text)) (f g : Nat × Text → Option (β × Text)),
      (∀ a, f (lowered a) = (g a).map lowered) →
      (r.map lowered).bind f = (r.bind g).map lowered := by
    intro β r f g same
    cases r with
    | none => rfl
    | some a => exact same a
  unfold readIpv4Addr
  rw [readOctet_caseless]
  apply step
  rintro ⟨a, s⟩
  dsimp only [lowered]
  rw [readOctet_caseless]
  apply step
  rintro ⟨b, s⟩
  dsimp only [lowered]
  rw [readOctet_caseless]
  apply step
  rintro ⟨c, s⟩
  dsimp only [lowered]
  rw [readOctet_caseless]
  apply step
  rintro ⟨d, s⟩
  rfl

theorem readGroups_caseless (left index : Nat) (s : Text) :
    readGroups left index (toAsciiLowercase s) = ((readGroups left index s).1,
      (readGroups left index s).2.1, toAsciiLowercase (readGroups left index s).2.2) := by
  induction left generalizing index s with
  | zero => rfl
  | succ left ih =>
      have embedded : (if 0 < left then readSeparator ':' index readIpv4Addr (toAsciiLowercase s)
          else none) =
          (if 0 < left then readSeparator ':' index readIpv4Addr s else none).map lowered := by
        split
        · exact readSeparator_caseless (by decide) readIpv4Addr_caseless index s
        · rfl
      have colon : (':' : Char).isAlpha = false := by decide
      have number := readSeparator_caseless colon (readNumber_caseless 16 4 true 65536) index s
      unfold readGroups
      rw [embedded, number]
      generalize (if 0 < left then readSeparator ':' index readIpv4Addr s else none) = four
      generalize readSeparator ':' index (readNumber 16 4 true 65536) s = group
      cases group with
      | none =>
          rcases four with _ | ⟨octets, rest⟩
          · rfl
          · rcases octets with _ | ⟨a, _ | ⟨b, _ | ⟨c, _ | ⟨d, _ | ⟨e, octets⟩⟩⟩⟩⟩ <;> rfl
      | some read =>
          obtain ⟨g, after⟩ := read
          have later := ih (index + 1) after
          rcases four with _ | ⟨octets, rest⟩
          · simp only [Option.map_none, Option.map_some, lowered, later]
          -- where no address is embedded, a group is read
          · rcases octets with _ | ⟨a, _ | ⟨b, _ | ⟨c, _ | ⟨d, _ | ⟨e, octets⟩⟩⟩⟩⟩ <;>
              simp only [Option.map_some, lowered, later]

theorem colons_of_lower {t : Text} (same : toAsciiLowercase s = ':' :: ':' :: t) :
    ∃ t, s = ':' :: ':' :: t := by
  rcases s with _ | ⟨c, _ | ⟨d, s⟩⟩
  · cases same
  · cases (List.cons.inj same).2
  · have first : c.toLower = ':' := (List.cons.inj same).1
    have second : d.toLower = ':' := (List.cons.inj (List.cons.inj same).2).1
    rw [Text.toLower_eq_iff (by decide)] at first second
    rw [first, second]
    exact ⟨s, rfl⟩

theorem readIpv6Addr_caseless : Caseless readIpv6Addr := by
  intro s
  unfold readIpv6Addr
  rw [readGroups_caseless]
  generalize readGroups 8 0 s = front
  obtain ⟨front, embedded, rest⟩ := front
  dsimp only
  split
  · rfl
  · split
    · rfl
    · by_cases colons : ∃ t, rest = ':' :: ':' :: t
      · obtain ⟨t, rfl⟩ := colons
        have lower : toAsciiLowercase (':' :: ':' :: t) = ':' :: ':' :: toAsciiLowercase t := rfl
        rw [lower]
        simp only [readGroups_caseless, Option.map_some, lowered]
      · split
        next t same => exact absurd (colons_of_lower same) colons
        · split
          next t same => exact absurd ⟨t, rfl⟩ colons
          · rfl

theorem parse_caseless (s : Text) : parse (toAsciiLowercase s) = parse s := by
  have empty (rest : Text) : toAsciiLowercase rest = [] ↔ rest = [] :=
    Text.toAsciiLowercase_eq_nil rest
  unfold parse
  rw [readIpv4Addr_caseless, readIpv6Addr_caseless]
  cases readIpv4Addr s with
  | some read => simp only [Option.map_some, lowered, empty]
  | none =>
      cases readIpv6Addr s with
      | some read => simp only [Option.map_none, Option.map_some, lowered, empty]
      | none => rfl

end Case

/-! ## First characters -/

section First
variable {c : Char} {s : Text}

/-- An address begins with a digit of its own or with a colon. -/
def Begins (c : Char) : Prop := (toDigit 16 c).isSome = true ∨ c = ':'

instance (c : Char) : Decidable (Begins c) := inferInstanceAs (Decidable (_ ∨ _))

theorem readNumber_other {radix maxDigits bound : Nat} {zero : Bool}
    (other : (toDigit radix c).isSome = false) :
    readNumber radix maxDigits zero bound (c :: s) = none := by
  unfold readNumber
  rw [List.takeWhile_cons_of_neg (by rw [other]; exact Bool.false_ne_true)]
  rfl

theorem toDigit_ten (other : (toDigit 16 c).isSome = false) : (toDigit 10 c).isSome = false := by
  unfold toDigit at other ⊢
  dsimp only at other ⊢
  generalize (if '0' ≤ c ∧ c ≤ '9' then some (c.toNat - '0'.toNat)
    else if 'a' ≤ c ∧ c ≤ 'z' then some (c.toNat - 'a'.toNat + 10)
    else if 'A' ≤ c ∧ c ≤ 'Z' then some (c.toNat - 'A'.toNat + 10) else none) = value at other ⊢
  cases value with
  | none => rfl
  | some v =>
      simp only [Option.filter, decide_eq_true_eq] at other ⊢
      by_cases small : v < 10
      · rw [if_pos (by omega)] at other
        cases other
      · rw [if_neg small]
        rfl

theorem readIpv4Addr_other (other : (toDigit 16 c).isSome = false) :
    readIpv4Addr (c :: s) = none := by
  have first : readOctet 0 (c :: s) = none := readNumber_other (toDigit_ten other)
  rw [readIpv4Addr, first]
  rfl

theorem readIpv6Addr_other (other : ¬ Begins c) : readIpv6Addr (c :: s) = none := by
  obtain ⟨digit, colon⟩ := not_or.mp other
  have digit : (toDigit 16 c).isSome = false := Bool.eq_false_iff.mpr digit
  have four : readSeparator ':' 0 readIpv4Addr (c :: s) = none := readIpv4Addr_other digit
  have group : readSeparator ':' 0 (readNumber 16 4 true 65536) (c :: s) = none :=
    readNumber_other digit
  have none_ : readGroups 8 0 (c :: s) = ([], false, c :: s) := by
    unfold readGroups
    rw [four, group]
    rfl
  rw [readIpv6Addr, none_]
  dsimp only
  rw [if_neg (by decide), if_neg Bool.false_ne_true]
  split
  next rest same =>
    injection same with same
    exact absurd same colon
  · rfl

theorem parse_other (other : ¬ Begins c) : parse (c :: s) = none := by
  obtain ⟨digit, -⟩ := not_or.mp other
  rw [parse, readIpv4Addr_other (Bool.eq_false_iff.mpr digit), readIpv6Addr_other other]

theorem parse_nil : parse [] = none := by decide

end First

end HClient.IpAddr
