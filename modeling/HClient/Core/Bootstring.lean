import HClient.Core.Cuts
import Mathlib.Data.List.InsertIdx
import Mathlib.Tactic.Ring

/-!
# Bootstring

The procedures of RFC 3492 with the parameters of Punycode, between code points as numbers and
basic text. A decoder fails where a number that it computes does not fit; the decoding of an
encoding is the string again where all of them do.
-/
namespace HClient.Bootstring
open Text (rsplitOnce)

def base : Nat := 36
def tmin : Nat := 1
def tmax : Nat := 26
def skew : Nat := 38
def damp : Nat := 700
def initialBias : Nat := 72
def initialN : Nat := 128
def delimiter : Char := '-'

/-- The value of a digit. Both cases of a letter have it. -/
def digitValue (c : Char) : Option Nat :=
  if 'a' ≤ c ∧ c ≤ 'z' then some (c.toNat - 'a'.toNat)
  else if 'A' ≤ c ∧ c ≤ 'Z' then some (c.toNat - 'A'.toNat)
  else if '0' ≤ c ∧ c ≤ '9' then some (c.toNat - '0'.toNat + 26)
  else none

/-- The digit that has a value: `a` to `z`, then `0` to `9`. -/
def digitOf (d : Nat) : Char := Char.ofNat (if d < 26 then d + 97 else d - 26 + 48)

/-- The threshold of a digit. A digit under it is the last of its integer. -/
def threshold (bias k : Nat) : Nat :=
  if k ≤ bias then tmin else if bias + tmax ≤ k then tmax else k - bias

def adaptLoop (delta k : Nat) : Nat :=
  if (base - tmin) * tmax / 2 < delta then adaptLoop (delta / (base - tmin)) (k + base)
  else k + (base - tmin + 1) * delta / (delta + skew)
termination_by delta
decreasing_by exact Nat.div_lt_self (by omega) (by decide)

/-- The adaptation of the bias to the delta just coded. -/
def adapt (delta numpoints : Nat) (first : Bool) : Nat :=
  let delta := if first then delta / damp else delta / 2
  adaptLoop (delta + delta / numpoints) 0

theorem toNat_ofNat {c : Nat} (valid : c.isValidChar) : (Char.ofNat c).toNat = c := by
  rw [Char.ofNat, dif_pos valid]
  rfl

theorem toNat_ofNat_basic {c : Nat} (basic : c < initialN) : (Char.ofNat c).toNat = c :=
  toNat_ofNat (Or.inl (lt_trans basic (by decide)))

theorem adaptLoop_of_lt {delta : Nat} (large : 455 < delta) (k : Nat) :
    adaptLoop delta k = adaptLoop (delta / 35) (k + 36) := by
  rw [adaptLoop]
  exact if_pos large

theorem adaptLoop_of_le {delta : Nat} (small : delta ≤ 455) (k : Nat) :
    adaptLoop delta k = k + 36 * delta / (delta + 38) := by
  rw [adaptLoop]
  exact if_neg (Nat.not_lt.mpr small)

theorem scaled_le (delta : Nat) : 36 * delta / (delta + 38) ≤ 36 := by
  apply Nat.div_le_of_le_mul
  rw [Nat.mul_comm]
  exact Nat.mul_le_mul_right 36 (Nat.le_add_right _ _)

theorem adaptLoop_le (delta k : Nat) : adaptLoop delta k ≤ k + 36 + delta / 2 := by
  induction delta using Nat.strong_induction_on generalizing k with
  | _ delta ih =>
      by_cases large : 455 < delta
      · have bound := ih (delta / 35) (by omega) (k + 36)
        rw [adaptLoop_of_lt large]
        omega
      · have most := scaled_le delta
        rw [adaptLoop_of_le (Nat.not_lt.mp large)]
        omega

theorem adapt_le (delta numpoints : Nat) (first : Bool) :
    adapt delta numpoints first ≤ 36 + delta / 2 := by
  unfold adapt damp
  dsimp only
  generalize damped : (if first then delta / 700 else delta / 2) = half
  have least : half ≤ delta / 2 := by
    rw [← damped]
    split <;> omega
  have bound := adaptLoop_le (half + half / numpoints) 0
  have share := Nat.div_le_self half numpoints
  omega

theorem threshold_bounds (bias k : Nat) : 1 ≤ threshold bias k ∧ threshold bias k ≤ 26 := by
  unfold threshold tmin tmax
  split
  · exact ⟨le_refl 1, by decide⟩
  · split
    · exact ⟨by decide, le_refl 26⟩
    · omega

theorem digitOf_ne_delimiter : ∀ d < base, digitOf d ≠ delimiter := by
  decide

theorem digitOf_basic : ∀ d < base, (digitOf d).toNat < initialN := by
  decide

theorem digitValue_digitOf : ∀ d < base, digitValue (digitOf d) = some d := by
  decide

/-! ## Generalized variable-length integers -/

section Integers
variable (fits : Nat → Bool) (value : Char → Option Nat) (bias : Nat)

/-- Adds an integer to `i`, its next digit of weight `w`. -/
def readInteger : Text → Nat → Nat → Nat → Option (Nat × Text)
  | [], _, _, _ => none
  | c :: rest, k, w, i =>
      match value c with
      | none => none
      | some digit =>
          if ¬ fits (i + digit * w) then none
          else if digit < threshold bias k then some (i + digit * w, rest)
          else if ¬ fits (w * (base - threshold bias k)) then none
          else readInteger rest (k + base) (w * (base - threshold bias k)) (i + digit * w)

/-- The numbers that are computed on the way. -/
def integerNumbers : Text → Nat → Nat → Nat → List Nat
  | [], _, _, _ => []
  | c :: rest, k, w, i =>
      match value c with
      | none => []
      | some digit =>
          (i + digit * w) :: if digit < threshold bias k then [] else
            (w * (base - threshold bias k)) ::
              integerNumbers rest (k + base) (w * (base - threshold bias k)) (i + digit * w)

def writeInteger (k q : Nat) : Text :=
  if q < threshold bias k then [digitOf q]
  else
    digitOf (threshold bias k + (q - threshold bias k) % (base - threshold bias k)) ::
      writeInteger (k + base) ((q - threshold bias k) / (base - threshold bias k))
termination_by q
decreasing_by
  have bounds := threshold_bounds bias k
  have small := Nat.div_le_self (q - threshold bias k) (base - threshold bias k)
  omega

variable {fits value bias} {input rest : Text} {k w i i' : Nat}

theorem readInteger_rest (read : readInteger fits value bias input k w i = some (i', rest)) :
    ∃ c taken, input = c :: (taken ++ rest) := by
  induction input generalizing k w i with
  | nil => cases read
  | cons c cs ih =>
      unfold readInteger at read
      split at read
      · cases read
      · split at read
        · cases read
        · split at read
          · cases read
            exact ⟨c, [], rfl⟩
          · split at read
            · cases read
            · obtain ⟨c', taken, rfl⟩ := ih read
              exact ⟨c, c' :: taken, rfl⟩

theorem readInteger_shortens (read : readInteger fits value bias input k w i = some (i', rest)) :
    rest.length < input.length := by
  obtain ⟨c, taken, rfl⟩ := readInteger_rest read
  rw [List.length_cons, List.length_append]
  omega

theorem readInteger_bounds (read : readInteger fits value bias input k w i = some (i', rest)) :
    i ≤ i' ∧ fits i' = true := by
  induction input generalizing k w i with
  | nil => cases read
  | cons c cs ih =>
      unfold readInteger at read
      split at read
      · cases read
      · split at read
        · cases read
        · rename_i fit
          split at read
          · cases read
            exact ⟨Nat.le_add_right _ _, not_not.mp fit⟩
          · split at read
            · cases read
            · obtain ⟨least, fit⟩ := ih read
              exact ⟨le_trans (Nat.le_add_right _ _) least, fit⟩

theorem readInteger_congr {value' : Char → Option Nat} (same : ∀ c ∈ input, value c = value' c) :
    readInteger fits value bias input k w i = readInteger fits value' bias input k w i := by
  induction input generalizing k w i with
  | nil => rfl
  | cons c cs ih =>
      rw [readInteger, readInteger, same c List.mem_cons_self]
      simp only [ih fun c' member => same c' (List.mem_cons_of_mem _ member)]

/-- Reading fails for overflow alone where it fails with numbers that do not fit. -/
theorem readInteger_iff : readInteger fits value bias input k w i = some (i', rest) ↔
    readInteger (fun _ => true) value bias input k w i = some (i', rest) ∧
      ∀ v ∈ integerNumbers value bias input k w i, fits v = true := by
  induction input generalizing k w i with
  | nil => simp [readInteger]
  | cons c cs ih =>
      unfold readInteger integerNumbers
      cases valued : value c with
      | none => simp
      | some digit =>
          by_cases fit : fits (i + digit * w) = true
          · by_cases last : digit < threshold bias k
            · simp [fit, last]
            · by_cases weight : fits (w * (base - threshold bias k)) = true
              · simp [fit, last, weight, ih]
              · simp [fit, last, weight]
          · simp [fit]

/-- An integer that was written is read, where there is room for 35 times what it comes to. -/
theorem readInteger_write (valued : ∀ d < base, value (digitOf d) = some d) (q : Nat)
    (weighs : 0 < w) (room : ∀ v ≤ 35 * (i + q * w), fits v = true) :
    readInteger fits value bias (writeInteger bias k q ++ rest) k w i = some (i + q * w, rest) := by
  induction k, q using writeInteger.induct bias generalizing w i with
  | case1 k q under =>
      have bounds := threshold_bounds bias k
      have digit := valued q (by unfold base; omega)
      have fit := room (i + q * w) (by omega)
      rw [writeInteger, if_pos under, List.cons_append, List.nil_append]
      simp only [readInteger, digit, fit, under, not_true_eq_false, if_true, if_false]
  | case2 k q enough ih =>
      have bounds := threshold_bounds bias k
      rw [writeInteger, if_neg enough, List.cons_append, readInteger]
      generalize threshold bias k = t at bounds enough ih
      have radix : 0 < base - t := by unfold base; omega
      have remainder := Nat.mod_lt (q - t) radix
      have parts := Nat.mod_add_div (q - t) (base - t)
      generalize (q - t) % (base - t) = r at *
      generalize (q - t) / (base - t) = next at *
      have whole : t + r + (base - t) * next = q := by omega
      have sum : i + (t + r) * w + next * (w * (base - t)) = i + q * w := by
        rw [← whole]
        ring
      have digit := valued (t + r) (by unfold base at *; omega)
      have least : w ≤ (t + r) * w := Nat.le_mul_of_pos_left w (by omega)
      have most : w * (base - t) ≤ w * 35 := Nat.mul_le_mul_left w (by unfold base; omega)
      have fit := room (i + (t + r) * w) (by rw [← sum]; omega)
      have weight := room (w * (base - t)) (by rw [← sum]; omega)
      have more := ih (w := w * (base - t)) (i := i + (t + r) * w) (Nat.mul_pos weighs radix)
        (by rw [sum]; exact room)
      simp only [digit, fit, weight, not_true_eq_false, if_false,
        show ¬ t + r < t by omega]
      rw [more, sum]

end Integers

/-! ## Decoding -/

/-- Where a decoder stands: the last code point it put in, and where it may put the next. -/
structure Decoder where
  n : Nat
  i : Nat
  bias : Nat
  output : List Nat
  deriving DecidableEq, Repr

/-- A decoder once an integer has brought it to `i`. -/
def Decoder.insert (st : Decoder) (i : Nat) : Decoder where
  n := st.n + i / (st.output.length + 1)
  i := i % (st.output.length + 1) + 1
  bias := adapt (i - st.i) (st.output.length + 1) (st.i = 0)
  output := st.output.insertIdx (i % (st.output.length + 1)) (st.n + i / (st.output.length + 1))

section Decoding
variable (fits : Nat → Bool) (value : Char → Option Nat)

def decodeFrom (st : Decoder) (input : Text) : Option (List Nat) :=
  if input = [] then some st.output
  else
    match _read : readInteger fits value st.bias input base 1 st.i with
    | none => none
    | some (i, rest) =>
        if ¬ fits (st.output.length + 1) then none
        else if ¬ fits (st.insert i).n then none
        else if (st.insert i).n < initialN then none
        else decodeFrom (st.insert i) rest
termination_by input.length
decreasing_by exact readInteger_shortens _read

/-- The numbers that are computed on the way. -/
def decodeNumbers (st : Decoder) (input : Text) : List Nat :=
  if input = [] then []
  else integerNumbers value st.bias input base 1 st.i ++
    match _read : readInteger (fun _ => true) value st.bias input base 1 st.i with
    | none => []
    | some (i, rest) =>
        (st.output.length + 1) :: (st.insert i).n :: decodeNumbers (st.insert i) rest
termination_by input.length
decreasing_by exact readInteger_shortens _read

/-- The text before the last delimiter, and what follows it. A delimiter that nothing precedes
is not one. -/
def splitLast (input : Text) : Text × Text :=
  match rsplitOnce delimiter input with
  | some (c :: literal, rest) => (c :: literal, rest)
  | _ => ([], input)

def start (literal : Text) : Decoder := ⟨initialN, 0, initialBias, literal.map Char.toNat⟩

def decode (input : Text) : Option (List Nat) :=
  if (splitLast input).1.all (·.toNat < initialN) then
    decodeFrom fits value (start (splitLast input).1) (splitLast input).2
  else none

/-- The numbers that are computed on the way. -/
def numbers (input : Text) : List Nat :=
  decodeNumbers value (start (splitLast input).1) (splitLast input).2

variable {fits value} {st : Decoder} {input : Text} {output : List Nat}

theorem decodeFrom_nil : decodeFrom fits value st [] = some st.output := by
  rw [decodeFrom, if_pos rfl]

theorem decodeFrom_ne_nil (more : input ≠ []) : decodeFrom fits value st input =
    (readInteger fits value st.bias input base 1 st.i).bind fun (i, rest) =>
      if ¬ fits (st.output.length + 1) then none
      else if ¬ fits (st.insert i).n then none
      else if (st.insert i).n < initialN then none
      else decodeFrom fits value (st.insert i) rest := by
  rw [decodeFrom, if_neg more]
  split <;> rename_i read <;> rw [read] <;> rfl

theorem decodeNumbers_nil : decodeNumbers value st [] = [] := by
  rw [decodeNumbers, if_pos rfl]

theorem decodeNumbers_some {r : Nat × Text} (more : input ≠ [])
    (read : readInteger (fun _ => true) value st.bias input base 1 st.i = some r) :
    decodeNumbers value st input = integerNumbers value st.bias input base 1 st.i ++
      (st.output.length + 1) :: (st.insert r.1).n ::
        decodeNumbers value (st.insert r.1) r.2 := by
  rw [decodeNumbers, if_neg more]
  split
  next none => cases read.symm.trans none
  next i rest some =>
    cases read.symm.trans some
    rfl

theorem splitLast_append {literal rest : Text} (some : literal ≠ []) (clean : delimiter ∉ rest) :
    splitLast (literal ++ delimiter :: rest) = (literal, rest) := by
  rw [splitLast, Text.rsplitOnce_eq_some.mpr ⟨clean, rfl⟩]
  cases literal with
  | nil => exact absurd rfl some
  | cons c literal => rfl

theorem splitLast_cons {rest : Text} (clean : delimiter ∉ rest) :
    splitLast (delimiter :: rest) = ([], delimiter :: rest) := by
  rw [splitLast, Text.rsplitOnce_eq_some.mpr ⟨clean, (List.nil_append _).symm⟩]

theorem splitLast_clean (clean : delimiter ∉ input) : splitLast input = ([], input) := by
  rw [splitLast, Text.rsplitOnce_eq_none.mpr clean]

theorem mem_of_splitLast {c : Char} (member : c ∈ (splitLast input).2) : c ∈ input := by
  unfold splitLast at member
  split at member
  · rename_i cut
    obtain ⟨_, parts⟩ := Text.rsplitOnce_eq_some.mp cut
    rw [parts]
    exact List.mem_append_right _ (List.mem_cons_of_mem _ member)
  · exact member

/-- A decoder takes nothing out again. -/
theorem decodeFrom_keeps (decoded : decodeFrom fits value st input = some output) :
    ∀ c ∈ st.output, c ∈ output := by
  induction many : input.length using Nat.strong_induction_on generalizing st input with
  | _ many ih =>
      by_cases more : input = []
      · rw [more, decodeFrom_nil] at decoded
        cases decoded
        exact fun _ member => member
      · rw [decodeFrom_ne_nil more] at decoded
        obtain ⟨⟨i, rest⟩, read, decoded⟩ := Option.bind_eq_some_iff.mp decoded
        have inside : i % (st.output.length + 1) ≤ st.output.length :=
          Nat.le_of_lt_succ (Nat.mod_lt _ (Nat.succ_pos _))
        dsimp only at decoded
        split at decoded
        · cases decoded
        · split at decoded
          · cases decoded
          · split at decoded
            · cases decoded
            · intro c member
              apply ih _ (many ▸ readInteger_shortens read) decoded rfl
              exact (List.mem_insertIdx inside).mpr (Or.inr member)

theorem decodeFrom_congr {value' : Char → Option Nat} (same : ∀ c ∈ input, value c = value' c) :
    decodeFrom fits value st input = decodeFrom fits value' st input := by
  induction many : input.length using Nat.strong_induction_on generalizing st input with
  | _ many ih =>
      by_cases more : input = []
      · rw [more, decodeFrom_nil, decodeFrom_nil]
      · rw [decodeFrom_ne_nil more, decodeFrom_ne_nil more, readInteger_congr same]
        cases read : readInteger fits value' st.bias input base 1 st.i with
        | none => rfl
        | some r =>
            obtain ⟨i, rest⟩ := r
            obtain ⟨c, taken, parts⟩ := readInteger_rest read
            have later : ∀ c' ∈ rest, value c' = value' c' := by
              intro c' member
              apply same c'
              rw [parts]
              exact List.mem_cons_of_mem _ (List.mem_append_right _ member)
            simp only [Option.bind_some, ih _ (many ▸ readInteger_shortens read) later rfl]

/-- Decoding fails for overflow alone where it fails with numbers that do not fit. -/
theorem decodeFrom_iff : decodeFrom fits value st input = some output ↔
    decodeFrom (fun _ => true) value st input = some output ∧
      ∀ v ∈ decodeNumbers value st input, fits v = true := by
  induction many : input.length using Nat.strong_induction_on generalizing st input with
  | _ many ih =>
      by_cases more : input = []
      · rw [more, decodeFrom_nil, decodeFrom_nil, decodeNumbers_nil]
        simp
      · rw [decodeFrom_ne_nil more, decodeFrom_ne_nil more]
        cases read : readInteger (fun _ => true) value st.bias input base 1 st.i with
        | none =>
            cases said : readInteger fits value st.bias input base 1 st.i with
            | none => simp
            | some r =>
                rw [(readInteger_iff.mp said).1] at read
                cases read
        | some r =>
            obtain ⟨i, rest⟩ := r
            have shorter := readInteger_shortens read
            have next := @ih _ (many ▸ shorter) (st.insert i) rest rfl
            rw [decodeNumbers_some more read, List.forall_mem_append, List.forall_mem_cons, List.forall_mem_cons]
            by_cases fit : ∀ v ∈ integerNumbers value st.bias input base 1 st.i, fits v = true
            · rw [readInteger_iff.mpr ⟨read, fit⟩]
              by_cases len : fits (st.output.length + 1) = true
              · by_cases point : fits (st.insert i).n = true
                · by_cases basic : (st.insert i).n < initialN
                  · simp [len, point, basic]
                  · simp only [Option.bind_some, len, point, basic, not_true_eq_false, if_false,
                      next, iff_true_intro fit, true_and]
                · simp [point]
              · simp [len]
            · have refused : readInteger fits value st.bias input base 1 st.i = none := by
                apply Option.eq_none_iff_forall_ne_some.mpr
                intro r said
                exact fit (readInteger_iff.mp said).2
              rw [refused]
              simp [fit]

theorem decode_iff : decode fits value input = some output ↔
    decode (fun _ => true) value input = some output ∧
      ∀ v ∈ numbers value input, fits v = true := by
  rw [decode, decode]
  split
  · exact decodeFrom_iff
  · simp

theorem decode_congr {value' : Char → Option Nat}
    (same : ∀ c ∈ (splitLast input).2, value c = value' c) :
    decode fits value input = decode fits value' input := by
  rw [decode, decode, decodeFrom_congr same]

/-- The procedure refuses a delimiter that nothing precedes. -/
theorem decode_delimiter {rest : Text} (clean : delimiter ∉ rest) (no : value delimiter = none) :
    decode fits value (delimiter :: rest) = none := by
  rw [decode, splitLast_cons clean, if_pos List.all_nil, decodeFrom_ne_nil (List.cons_ne_nil _ _),
    readInteger, no]
  rfl

end Decoding

/-! ## Encoding -/

/-- What an encoder keeps, and the digits that it wrote. -/
structure Encoder where
  delta : Nat
  bias : Nat
  h : Nat
  digits : Text
  deriving DecidableEq, Repr

/-- One code point of a scan for those that are `n`. -/
def scanPoint (b n : Nat) (st : Encoder) (c : Nat) : Encoder :=
  if c < n then { st with delta := st.delta + 1 }
  else if c = n then
    { delta := 0
      bias := adapt st.delta (st.h + 1) (st.h = b)
      h := st.h + 1
      digits := st.digits ++ writeInteger st.bias base st.delta }
  else st

/-- A scan of the string, once it was found that `m` comes next. -/
def scan (s : List Nat) (b n m : Nat) (st : Encoder) : Encoder :=
  let st := s.foldl (scanPoint b m) { st with delta := st.delta + (m - n) * (st.h + 1) }
  { st with delta := st.delta + 1 }

def encodeFrom (s : List Nat) (b n : Nat) (st : Encoder) : Text :=
  if st.h < s.length then
    match _least : (s.filter (n ≤ ·)).min? with
    | none => st.digits
    | some m => encodeFrom s b (m + 1) (scan s b n m st)
  else st.digits
termination_by (s.filter (n ≤ ·)).length
decreasing_by
  obtain ⟨member, _⟩ := List.min?_eq_some_iff.mp _least
  have bound := of_decide_eq_true (List.mem_filter.mp member).2
  have fewer : s.filter (m + 1 ≤ ·) = (s.filter (n ≤ ·)).filter (m + 1 ≤ ·) := by
    rw [List.filter_filter]
    apply List.filter_congr
    intro c _
    simp
    omega
  rw [fewer]
  apply List.length_filter_lt_length_iff_exists.mpr
  exact ⟨m, member, by simp⟩

theorem encodeFrom_next {s : List Nat} {b n m : Nat} {st : Encoder} (more : st.h < s.length)
    (least : (s.filter (n ≤ ·)).min? = some m) :
    encodeFrom s b n st = encodeFrom s b (m + 1) (scan s b n m st) := by
  rw [encodeFrom, if_pos more]
  split
  · rename_i absent
    rw [absent] at least
    cases least
  · rename_i m' same
    rw [same] at least
    cases least
    rfl

theorem encodeFrom_done {s : List Nat} {b n : Nat} {st : Encoder} (all : ¬ st.h < s.length) :
    encodeFrom s b n st = st.digits := by
  rw [encodeFrom, if_neg all]

def encode (s : List Nat) : Text :=
  let basic := s.filter (· < initialN)
  (if basic = [] then [] else basic.map Char.ofNat ++ [delimiter]) ++
    encodeFrom s basic.length initialN ⟨0, initialBias, basic.length, []⟩

section RoundTrip
variable {fits : Nat → Bool} {value : Char → Option Nat}

theorem insertIdx_length (L R : List Nat) (m : Nat) :
    (L ++ R).insertIdx L.length m = L ++ m :: R := by
  induction L with
  | nil => rfl
  | cons c L ih =>
      rw [List.cons_append, List.length_cons, List.insertIdx_succ_cons, ih, List.cons_append]

/-- Where the last code point goes that was decoded from so many steps. -/
theorem insert_at {st : Decoder} {L R : List Nat} (output : st.output = L ++ R) {m i : Nat}
    (behind : st.n ≤ m) (steps : i = (m - st.n) * (st.output.length + 1) + L.length) :
    st.insert i = ⟨m, L.length + 1, adapt (i - st.i) (st.output.length + 1) (st.i = 0),
      L ++ m :: R⟩ := by
  have inside : L.length < st.output.length + 1 := by
    rw [output, List.length_append]
    omega
  have position : i % (st.output.length + 1) = L.length := by
    rw [steps, Nat.mul_add_mod_of_lt inside]
  have point : st.n + i / (st.output.length + 1) = m := by
    rw [steps, Nat.add_comm _ L.length, Nat.add_mul_div_right _ _ (Nat.succ_pos _),
      Nat.div_eq_of_lt inside]
    omega
  unfold Decoder.insert
  rw [position, point, output, insertIdx_length]

/-- An encoder that looks for `m`, part of the string behind it, and the decoder that read what
it wrote. -/
structure Meets (fits : Nat → Bool) (value : Char → Option Nat) (literal : Text) (m : Nat)
    (before after : List Nat) (enc : Encoder) (dec : Decoder) : Prop where
  reads : ∀ rest, decodeFrom fits value (start literal) (enc.digits ++ rest) =
    decodeFrom fits value dec rest
  digits : ∀ c ∈ enc.digits, ∃ d < base, digitOf d = c
  output : dec.output = before.filter (· ≤ m) ++ after.filter (· < m)
  basic : initialN ≤ dec.n
  behind : dec.n ≤ m
  steps : enc.delta + dec.i =
    (m - dec.n) * (dec.output.length + 1) + (before.filter (· ≤ m)).length
  count : enc.h = dec.output.length
  bias : enc.bias = dec.bias
  copied : literal.length ≤ enc.h
  first : dec.i = 0 ↔ enc.h = literal.length

theorem writeInteger_digits (bias k q : Nat) :
    ∀ c ∈ writeInteger bias k q, ∃ d < base, digitOf d = c := by
  induction k, q using writeInteger.induct bias with
  | case1 k q under =>
      have bounds := threshold_bounds bias k
      rw [writeInteger, if_pos under, List.forall_mem_singleton]
      exact ⟨q, by unfold base; omega, rfl⟩
  | case2 k q enough ih =>
      have bounds := threshold_bounds bias k
      have remainder := Nat.mod_lt (q - threshold bias k) (y := base - threshold bias k)
        (by unfold base; omega)
      rw [writeInteger, if_neg enough, List.forall_mem_cons]
      exact ⟨⟨_, by unfold base at *; omega, rfl⟩, ih⟩

theorem writeInteger_ne_nil (bias k q : Nat) : writeInteger bias k q ≠ [] := by
  rw [writeInteger]
  split
  · exact List.cons_ne_nil _ _
  · exact List.cons_ne_nil _ _

variable (valued : ∀ d < base, value (digitOf d) = some d)
include valued

/-- What an encoder writes of its steps takes the decoder that far. -/
theorem decodeFrom_write {dec : Decoder} (delta : Nat) (rest : Text) (basic : initialN ≤ dec.n)
    (room : ∀ v ≤ 35 * (dec.i + delta), fits v = true)
    (len : fits (dec.output.length + 1) = true)
    (point : fits (dec.insert (dec.i + delta)).n = true) :
    decodeFrom fits value dec (writeInteger dec.bias base delta ++ rest) =
      decodeFrom fits value (dec.insert (dec.i + delta)) rest := by
  have more : writeInteger dec.bias base delta ++ rest ≠ [] :=
    List.append_ne_nil_of_left_ne_nil (writeInteger_ne_nil _ _ _) _
  have read : readInteger fits value dec.bias (writeInteger dec.bias base delta ++ rest) base 1
      dec.i = some (dec.i + delta * 1, rest) :=
    readInteger_write valued delta (by decide) (by rw [Nat.mul_one]; exact room)
  have grown : ¬ (dec.insert (dec.i + delta)).n < initialN :=
    Nat.not_lt.mpr (Nat.le_trans basic (Nat.le_add_right _ _))
  rw [decodeFrom_ne_nil more, read, Nat.mul_one]
  simp only [Option.bind_some, len, point, grown, not_true_eq_false, if_false]

variable {s before after : List Nat} {literal : Text} {m n c limit : Nat} {enc : Encoder}
  {dec : Decoder}

/-- One code point of a scan: both go on from it, or it is not its turn. -/
theorem scanPoint_meets (met : Meets fits value literal m before (c :: after) enc dec)
    (bounded : m < limit)
    (room : ∀ v ≤ 35 * (limit * (before ++ c :: after).length), fits v = true) :
    ∃ dec', Meets fits value literal m (before ++ [c]) after
      (scanPoint literal.length m enc c) dec' := by
  have output := met.output
  have steps := met.steps
  rcases Nat.lt_trichotomy c m with under | same | above
  · -- it is in the output: the steps go past it
    have passed : scanPoint literal.length m enc c = { enc with delta := enc.delta + 1 } :=
      if_pos under
    rw [passed]
    refine ⟨dec, met.reads, met.digits, ?_, met.basic, met.behind, ?_, met.count, met.bias,
      met.copied, met.first⟩
    · rw [output]
      simp [under, le_of_lt under]
    · rw [List.filter_append, List.length_append]
      simp [le_of_lt under]
      omega
  · -- its turn: the steps are written, and the decoder puts it in
    subst same
    have written : scanPoint literal.length c enc c =
        ⟨0, adapt enc.delta (enc.h + 1) (enc.h = literal.length), enc.h + 1,
          enc.digits ++ writeInteger enc.bias base enc.delta⟩ := by
      rw [scanPoint, if_neg (Nat.lt_irrefl c), if_pos rfl]
    have output' : dec.output = before.filter (· ≤ c) ++ after.filter (· < c) := by
      rw [output]
      simp
    have placed := insert_at output' (i := dec.i + enc.delta) met.behind
      (by rw [Nat.add_comm, steps])
    have few : dec.output.length + 1 ≤ (before ++ c :: after).length := by
      have most := List.length_filter_le (fun x => decide (x ≤ c)) before
      have most' := List.length_filter_le (fun x => decide (x < c)) after
      rw [output', List.length_append, List.length_append, List.length_cons]
      omega
    have near : dec.i + enc.delta ≤ limit * (before ++ c :: after).length := by
      have place : (before.filter (· ≤ c)).length ≤ dec.output.length := by
        rw [output', List.length_append]
        omega
      calc dec.i + enc.delta
        _ ≤ (c - dec.n + 1) * (dec.output.length + 1) := by
            rw [Nat.add_comm, steps, Nat.succ_mul]
            omega
        _ ≤ limit * (before ++ c :: after).length := Nat.mul_le_mul (by omega) few
    have read := fun rest => @decodeFrom_write fits value valued dec enc.delta rest
      met.basic (fun v most => room v (le_trans most (Nat.mul_le_mul_left 35 near)))
      (room _ (by
        have wide := Nat.le_mul_of_pos_left (before ++ c :: after).length (by omega : 0 < limit)
        omega))
      (room _ (by
        have wide := Nat.le_mul_of_pos_right limit (by simp : 0 < (before ++ c :: after).length)
        rw [placed]
        dsimp only
        omega))
    rw [written]
    refine ⟨dec.insert (dec.i + enc.delta), ?_, ?_, ?_, ?_, ?_, ?_, ?_, ?_,
      Nat.le_succ_of_le met.copied, ?_⟩
    · intro rest
      rw [List.append_assoc, met.reads, met.bias, read]
    · exact List.forall_mem_append.mpr ⟨met.digits, writeInteger_digits _ _ _⟩
    · rw [placed]
      simp
    · exact le_trans met.basic (Nat.le_add_right _ _)
    · rw [placed]
    · rw [placed]
      simp
    · rw [placed, met.count, output']
      simp
      omega
    · rw [placed, met.count]
      simp [met.first, met.count]
    · rw [placed]
      have copied := met.copied
      simp
      omega
  · -- its turn comes later
    have left : scanPoint literal.length m enc c = enc := by
      rw [scanPoint, if_neg (Nat.not_lt.mpr (le_of_lt above)), if_neg (ne_of_gt above)]
    rw [left]
    refine ⟨dec, met.reads, met.digits, ?_, met.basic, met.behind, ?_, met.count, met.bias,
      met.copied, met.first⟩
    · rw [output]
      simp [above, le_of_lt above]
    · rw [steps, List.filter_append, List.length_append]
      simp [above]

theorem scan_meets (bounded : m < limit) (met : Meets fits value literal m before after enc dec)
    (room : ∀ v ≤ 35 * (limit * (before ++ after).length), fits v = true) :
    ∃ dec', Meets fits value literal m (before ++ after) []
      (after.foldl (scanPoint literal.length m) enc) dec' := by
  induction after generalizing before enc dec with
  | nil => exact ⟨dec, by rwa [List.append_nil]⟩
  | cons c after ih =>
      obtain ⟨dec', next⟩ := scanPoint_meets valued met bounded room
      have whole : before ++ [c] ++ after = before ++ c :: after := by simp
      rw [← whole] at room ⊢
      exact ih next room

omit valued in
/-- The next code point to look for: the steps are those to its first place. -/
theorem Meets.look (met : Meets fits value literal n [] s enc dec) (later : n ≤ m)
    (least : ∀ c ∈ s, n ≤ c → m ≤ c) :
    Meets fits value literal m [] s
      { enc with delta := enc.delta + (m - n) * (enc.h + 1) } dec := by
  have behind := met.behind
  refine ⟨met.reads, met.digits, ?_, met.basic, le_trans behind later, ?_, met.count, met.bias,
    met.copied, met.first⟩
  · rw [met.output]
    congr 1
    apply List.filter_congr
    intro c member
    have next := least c member
    simp
    omega
  · have steps := met.steps
    have apart : m - dec.n = (n - dec.n) + (m - n) := by omega
    simp only [List.filter_nil, List.length_nil] at steps ⊢
    rw [apart, Nat.add_mul, ← met.count]
    rw [← met.count] at steps
    omega

omit valued in
/-- A scan that is done, one step past the last place of its code point. -/
theorem Meets.done (met : Meets fits value literal m s [] enc dec) :
    Meets fits value literal (m + 1) [] s { enc with delta := enc.delta + 1 } dec := by
  have behind := met.behind
  have output := met.output
  rw [List.filter_nil, List.append_nil] at output
  refine ⟨met.reads, met.digits, ?_, met.basic, Nat.le_succ_of_le behind, ?_, met.count, met.bias,
    met.copied, met.first⟩
  · rw [output, List.filter_nil, List.nil_append]
    apply List.filter_congr
    intro c _
    simp only [Nat.lt_succ_iff]
  · have steps := met.steps
    have apart : m + 1 - dec.n = (m - dec.n) + 1 := by omega
    rw [apart, Nat.succ_mul]
    rw [← output] at steps
    simp only [List.filter_nil, List.length_nil]
    omega

omit valued in
theorem Meets.ended (met : Meets fits value literal n [] s enc dec) (all : ¬ enc.h < s.length) :
    decodeFrom fits value (start literal) enc.digits = some s := by
  have output := met.output
  rw [List.filter_nil, List.nil_append] at output
  have count : (s.filter (· < n)).length = s.length := by
    have most := List.length_filter_le (fun x => decide (x < n)) s
    rw [← output, ← met.count] at most ⊢
    omega
  have whole := List.filter_eq_self.mpr (List.length_filter_eq_length_iff.mp count)
  have reads := met.reads []
  rwa [List.append_nil, decodeFrom_nil, output, whole] at reads

/-- The rest of an encoding, read by the decoder that the encoder meets. -/
theorem encodeFrom_meets (bounded : ∀ c ∈ s, c < limit)
    (room : ∀ v ≤ 35 * (limit * s.length), fits v = true)
    (met : Meets fits value literal n [] s enc dec) :
    decodeFrom fits value (start literal) (encodeFrom s literal.length n enc) = some s ∧
      ∀ c ∈ encodeFrom s literal.length n enc, ∃ d < base, digitOf d = c := by
  induction n, enc using encodeFrom.induct s literal.length generalizing dec with
  | case1 n enc more absent =>
      have under := List.filter_eq_nil_iff.mp (List.min?_eq_none_iff.mp absent)
      have output := met.output
      have whole : s.filter (· < n) = s := by
        apply List.filter_eq_self.mpr
        intro c member
        have low := under c member
        simp at low ⊢
        exact low
      rw [List.filter_nil, List.nil_append, whole] at output
      rw [met.count, output] at more
      exact absurd more (Nat.lt_irrefl _)
  | case2 n enc more m least ih =>
      obtain ⟨member, first⟩ := List.min?_eq_some_iff.mp least
      obtain ⟨member, later⟩ := List.mem_filter.mp member
      have looked := met.look (of_decide_eq_true later)
        (fun c there above => first c (List.mem_filter.mpr ⟨there, decide_eq_true above⟩))
      obtain ⟨dec', scanned⟩ := scan_meets valued (bounded m member) looked room
      rw [encodeFrom_next more least]
      exact ih scanned.done
  | case3 n enc all =>
      rw [encodeFrom_done all]
      exact ⟨met.ended all, met.digits⟩

omit valued in
theorem map_ofNat_basic (s : List Nat) :
    ((s.filter (· < initialN)).map Char.ofNat).map Char.toNat = s.filter (· < initialN) := by
  rw [List.map_map]
  apply List.map_congr_left _ |>.trans (List.map_id _)
  intro c member
  exact toNat_ofNat_basic (of_decide_eq_true (List.mem_filter.mp member).2)

omit valued in
theorem start_meets (s : List Nat) :
    Meets fits value ((s.filter (· < initialN)).map Char.ofNat) initialN [] s
      ⟨0, initialBias, (s.filter (· < initialN)).length, []⟩
      (start ((s.filter (· < initialN)).map Char.ofNat)) := by
  refine ⟨fun _ => rfl, nofun, map_ofNat_basic s, le_refl _, le_refl _, ?_, ?_, rfl, ?_, ?_⟩
  · simp [start]
  · rw [start, map_ofNat_basic]
  · rw [List.length_map]
  · simp [start]

omit valued in
/-- The parts of an encoding: the basic code points, and digits. -/
theorem encode_parts (s : List Nat) : ∃ digits, (∀ c ∈ digits, ∃ d < base, digitOf d = c) ∧
    digits = encodeFrom s (s.filter (· < initialN)).length initialN
      ⟨0, initialBias, (s.filter (· < initialN)).length, []⟩ ∧
    splitLast (encode s) = ((s.filter (· < initialN)).map Char.ofNat, digits) := by
  have low : ∀ c ∈ s, c < s.sum + 1 := fun c member =>
    Nat.lt_succ_of_le (List.le_sum_of_mem member)
  obtain ⟨_, digits⟩ := @encodeFrom_meets (fun _ => true) _ digitValue_digitOf _ _ _ _ _ _ low
    (fun _ _ => rfl) (start_meets s)
  rw [List.length_map] at digits
  refine ⟨_, digits, rfl, ?_⟩
  have clean : delimiter ∉ encodeFrom s (s.filter (· < initialN)).length initialN
      ⟨0, initialBias, (s.filter (· < initialN)).length, []⟩ := by
    intro member
    obtain ⟨d, within, same⟩ := digits _ member
    exact digitOf_ne_delimiter d within same
  unfold encode
  dsimp only
  split
  · rename_i none
    rw [none] at clean ⊢
    exact splitLast_clean clean
  · rename_i some
    rw [List.append_assoc, List.singleton_append]
    exact splitLast_append (mt List.map_eq_nil_iff.mp some) clean

omit valued in
theorem literal_basic (s : List Nat) :
    ((s.filter (· < initialN)).map Char.ofNat).all (·.toNat < initialN) = true := by
  rw [List.all_map, List.all_eq_true]
  intro c member
  have low := (List.mem_filter.mp member).2
  rw [Function.comp_apply, toNat_ofNat_basic (of_decide_eq_true low)]
  exact low

omit valued in
theorem encode_basic (s : List Nat) : ∀ c ∈ encode s, c.toNat < initialN := by
  obtain ⟨digits, each, same, _⟩ := encode_parts s
  have last : ∀ c ∈ digits, c.toNat < initialN := by
    intro c member
    obtain ⟨d, within, rfl⟩ := each c member
    exact digitOf_basic d within
  unfold encode
  dsimp only
  rw [← same]
  split
  · exact last
  · rw [List.forall_mem_append, List.forall_mem_append, List.forall_mem_singleton]
    refine ⟨⟨?_, by decide⟩, last⟩
    intro c member
    exact of_decide_eq_true (List.all_eq_true.mp (literal_basic s) c member)

/-- What is encoded is decoded again, where there is room for the numbers of it. -/
theorem decode_encode (bounded : ∀ c ∈ s, c < limit)
    (room : ∀ v ≤ 35 * (limit * s.length), fits v = true) :
    decode fits value (encode s) = some s := by
  obtain ⟨digits, _, same, parts⟩ := encode_parts s
  obtain ⟨read, _⟩ := encodeFrom_meets valued bounded room (start_meets s)
  rw [List.length_map, ← same] at read
  rw [decode, parts]
  dsimp only
  rw [if_pos (literal_basic s), read]

end RoundTrip

end HClient.Bootstring
