import HClient.Core.Bootstring
import HClient.Core.Percent

/-!
# Punycode

The decoder of the payload of an ACE label, in machine words: where it would panic, and what it
decodes beside the procedure of RFC 3492.
-/
namespace HClient.Idn
open Text (rsplitOnce)

/-- What a decoder comes to. There is nothing where it would panic or not end. -/
abbrev Run (α : Type) : Type := OptionT Option α

namespace Run

def panics {α : Type} : Run α := OptionT.mk none

def ofOption {α : Type} (a : Option α) : Run α := OptionT.mk (some a)

/-- The result of an arithmetic step on `u32` that is not checked. -/
def word (v : Nat) : Run Nat := if v < 2 ^ 32 then pure v else panics

/-- The result of a checked one. -/
def checked (v : Nat) : Run Nat := if v < 2 ^ 32 then pure v else failure

def sub (a b : Nat) : Run Nat := if b ≤ a then pure (a - b) else panics

def div (a b : Nat) : Run Nat := if b = 0 then panics else pure (a / b)

def rem (a b : Nat) : Run Nat := if b = 0 then panics else pure (a % b)

/-- `Vec::insert`. -/
def insert (out : Text) (i : Nat) (c : Char) : Run Text :=
  if i ≤ out.length then pure (out.insertIdx i c) else panics

end Run

def base : Nat := 36
def tmin : Nat := 1
def tmax : Nat := 26
def skew : Nat := 38
def damp : Nat := 700
def initialBias : Nat := 72
def initialN : Nat := 128

/-- The value of a digit, of a small letter alone. -/
def decodeDigit (b : Char) : Option Nat :=
  if 'a' ≤ b ∧ b ≤ 'z' then some (b.toNat - 'a'.toNat)
  else if '0' ≤ b ∧ b ≤ '9' then some (b.toNat - '0'.toNat + 26)
  else none

/-- The loop of the adaptation, within so many turns. -/
def adaptIn : Nat → Nat → Nat → Run Nat
  | 0, _, _ => Run.panics
  | fuel + 1, delta, k => do
      if (base - tmin) * tmax / 2 < delta then
        adaptIn fuel (delta / (base - tmin)) (← Run.word (k + base))
      else
        let scaled ← Run.word ((base - tmin + 1) * delta)
        let q ← Run.div scaled (← Run.word (delta + skew))
        Run.word (k + q)

def adapt (delta numpoints : Nat) (first : Bool) : Run Nat := do
  let delta := if first then delta / damp else delta / 2
  let delta ← Run.word (delta + (← Run.div delta numpoints))
  adaptIn (delta + 1) delta 0

/-- The `t` of a digit. -/
def threshold (bias k : Nat) : Run Nat :=
  if k ≤ bias then pure tmin
  else do if (← Run.word (bias + tmax)) ≤ k then pure tmax else Run.sub k bias

/-- The digits of a delta, the next one of weight `w`. -/
def readDelta (bias : Nat) : Text → Nat → Nat → Nat → Run (Nat × Text)
  | [], _, _, _ => failure
  | b :: rest, w, k, i => do
      let digit ← Run.ofOption (decodeDigit b)
      let i ← Run.checked (i + (← Run.checked (digit * w)))
      let t ← threshold bias k
      if digit < t then pure (i, rest)
      else
        let w ← Run.checked (w * (← Run.sub base t))
        readDelta bias rest w (← Run.word (k + base)) i

/-- `char::from_u32`. -/
def fromU32 (v : Nat) : Option Char := if v.isValidChar then some (Char.ofNat v) else none

/-- The loop over the deltas, within so many turns. -/
def decodeIn : Nat → Nat → Nat → Nat → Text → Text → Run Text
  | fuel, n, i, bias, out, digits => do
      if digits = [] then pure out
      else match fuel with
        | 0 => Run.panics
        | fuel + 1 =>
            let oldI := i
            let (i, digits) ← readDelta bias digits 1 base i
            let len ← Run.checked ((← Run.checked out.length) + 1)
            let bias ← adapt (← Run.sub i oldI) len (oldI = 0)
            let n ← Run.checked (n + (← Run.div i len))
            let i ← Run.rem i len
            let out ← Run.insert out i (← Run.ofOption (fromU32 n))
            let i ← Run.checked (i + 1)
            decodeIn fuel n i bias out digits

def decodePunycode (payload : Text) : Run Text :=
  if ¬ payload.isAscii then failure
  else
    let (basic, digits) := (rsplitOnce '-' payload).getD ([], payload)
    decodeIn digits.length initialN 0 initialBias basic digits

/-! ## Runs -/

namespace Run
variable {α β : Type} {v a b : Nat}

@[simp] theorem ofOption_some (a : α) : ofOption (some a) = pure a := rfl

theorem word_of_lt (h : v < 2 ^ 32) : word v = pure v := if_pos h

theorem checked_of_lt (h : v < 2 ^ 32) : checked v = pure v := if_pos h

theorem checked_of_ge (h : ¬ v < 2 ^ 32) : checked v = failure := if_neg h

theorem sub_of_le (h : b ≤ a) : sub a b = pure (a - b) := if_pos h

theorem div_of_pos (h : 0 < b) : div a b = pure (a / b) := if_neg (Nat.ne_of_gt h)

theorem rem_of_pos (h : 0 < b) : rem a b = pure (a % b) := if_neg (Nat.ne_of_gt h)

end Run

/-- What a machine word holds. -/
def fits (v : Nat) : Bool := v < 2 ^ 32

theorem fits_iff {v : Nat} : fits v = true ↔ v < 2 ^ 32 := decide_eq_true_iff

/-- The loop of the adaptation computes in words what it is to compute. -/
theorem adaptIn_eq {fuel delta k : Nat} (enough : delta < fuel)
    (room : k + 36 + delta / 2 < 2 ^ 32) :
    adaptIn fuel delta k = pure (Bootstring.adaptLoop delta k) := by
  induction fuel generalizing delta k with
  | zero => exact absurd enough (Nat.not_lt_zero _)
  | succ fuel ih =>
      rw [adaptIn]
      by_cases large : 455 < delta
      · have more : (base - tmin) * tmax / 2 < delta := large
        have step : k + base < 2 ^ 32 := by unfold base; omega
        rw [if_pos more, Run.word_of_lt step, pure_bind, Bootstring.adaptLoop_of_lt large]
        exact @ih (delta / 35) (k + 36) (by omega) (by omega)
      · have less : ¬ (base - tmin) * tmax / 2 < delta := large
        have most := Bootstring.scaled_le delta
        have scaled : 36 * delta < 2 ^ 32 := by omega
        have skewed : delta + 38 < 2 ^ 32 := by omega
        have sum : k + 36 * delta / (delta + 38) < 2 ^ 32 := by omega
        rw [if_neg less, Bootstring.adaptLoop_of_le (Nat.not_lt.mp large)]
        unfold base tmin skew
        rw [Run.word_of_lt scaled, pure_bind, Run.word_of_lt skewed, pure_bind,
          Run.div_of_pos (Nat.succ_pos _), pure_bind]
        exact Run.word_of_lt sum

theorem adapt_eq {delta numpoints : Nat} (small : delta < 2 ^ 32) (some : 0 < numpoints)
    (first : Bool) :
    adapt delta numpoints first = pure (Bootstring.adapt delta numpoints first) := by
  unfold adapt Bootstring.adapt damp Bootstring.damp
  dsimp only
  generalize damped : (if first then delta / 700 else delta / 2) = half
  have least : half ≤ delta / 2 := by
    rw [← damped]
    split <;> omega
  have share := Nat.div_le_self half numpoints
  have sum : half + half / numpoints < 2 ^ 32 := by omega
  rw [Run.div_of_pos some, pure_bind, Run.word_of_lt sum, pure_bind]
  exact adaptIn_eq (Nat.lt_succ_self _) (by omega)

theorem checked_grow {α : Type} (g : Nat → Nat) (grows : ∀ v, v ≤ g v) (v : Nat) (f : Nat → Run α) :
    (Run.checked v >>= fun v => Run.checked (g v) >>= f) =
      if ¬ fits (g v) then failure else f (g v) := by
  have least := grows v
  by_cases whole : g v < 2 ^ 32
  · rw [Run.checked_of_lt (Nat.lt_of_le_of_lt least whole), pure_bind, Run.checked_of_lt whole,
      pure_bind, if_neg (not_not.mpr (fits_iff.mpr whole))]
  · rw [if_pos (mt fits_iff.mp whole)]
    by_cases part : v < 2 ^ 32
    · rw [Run.checked_of_lt part, pure_bind, Run.checked_of_ge whole]
      rfl
    · rw [Run.checked_of_ge part]
      rfl

theorem checked_then {v : Nat} {α : Type} (f : Nat → Run α) :
    (Run.checked v >>= f) = if ¬ fits v then failure else f v := by
  by_cases whole : v < 2 ^ 32
  · rw [Run.checked_of_lt whole, pure_bind, if_neg (not_not.mpr (fits_iff.mpr whole))]
  · rw [Run.checked_of_ge whole, if_pos (mt fits_iff.mp whole)]
    rfl

theorem threshold_eq {bias : Nat} (small : bias + 26 < 2 ^ 32) (k : Nat) :
    threshold bias k = pure (Bootstring.threshold bias k) := by
  unfold threshold Bootstring.threshold tmin tmax Bootstring.tmin Bootstring.tmax
  by_cases low : k ≤ bias
  · rw [if_pos low, if_pos low]
  · rw [if_neg low, if_neg low, Run.word_of_lt small, pure_bind]
    by_cases high : bias + 26 ≤ k
    · rw [if_pos high, if_pos high]
    · rw [if_neg high, if_neg high, Run.sub_of_le (le_of_not_ge low)]

/-- The digits of a delta are read in words as they are to be read. -/
theorem readDelta_eq {bias : Nat} (small : bias + 26 < 2 ^ 32) {digits : Text} {w i j : Nat}
    (least : 10 ^ j ≤ w) (most : w < 2 ^ 32) :
    readDelta bias digits w (36 * (j + 1)) i =
      Run.ofOption (Bootstring.readInteger fits decodeDigit bias digits (36 * (j + 1)) w i) := by
  induction digits generalizing w i j with
  | nil => rfl
  | cons b rest ih =>
      rw [readDelta, Bootstring.readInteger]
      cases valued : decodeDigit b with
      | none => rfl
      | some digit =>
          have bounds := Bootstring.threshold_bounds bias (36 * (j + 1))
          rw [Run.ofOption_some, pure_bind]
          generalize h : Bootstring.threshold bias (36 * (j + 1)) = t at bounds ⊢
          rw [checked_grow (i + ·) (fun _ => Nat.le_add_left _ _), threshold_eq small, pure_bind, h]
          dsimp only
          by_cases fit : fits (i + digit * w) = true
          · rw [if_neg (not_not.mpr fit), if_neg (not_not.mpr fit)]
            by_cases last : digit < t
            · rw [if_pos last, if_pos last]
              rfl
            · have below : t ≤ base := by unfold base; omega
              rw [if_neg last, if_neg last, Run.sub_of_le below, pure_bind, checked_then]
              by_cases weight : fits (w * (base - t)) = true
              · have heavier : 10 ^ (j + 1) ≤ w * (base - t) := by
                  rw [Nat.pow_succ]
                  exact Nat.mul_le_mul least (by unfold base; omega)
                have bounded := fits_iff.mp weight
                have turns : j + 1 < 10 := by
                  by_contra many
                  have large := Nat.pow_le_pow_right (n := 10) (by decide) (Nat.not_lt.mp many)
                  omega
                have step : 36 * (j + 1) + base < 2 ^ 32 := by unfold base; omega
                have weight' : fits (w * (Bootstring.base - t)) = true := weight
                rw [if_neg (not_not.mpr weight), Run.word_of_lt step, pure_bind,
                  if_neg (not_not.mpr weight')]
                exact ih heavier bounded
              · rw [if_pos weight]
                exact (congrArg Run.ofOption (if_pos weight)).symm
          · rw [if_pos fit, if_pos fit]
            rfl

/-- A run that does not panic, and comes to the text that has these code points if any has. -/
def ComesTo (run : Run Text) (points : Option (List Nat)) : Prop :=
  ∃ r, run.run = some r ∧ ∀ s, r = some s ↔ points = some (s.map Char.toNat)

theorem ComesTo.absent {points : Option (List Nat)}
    (missing : ∀ s : Text, points ≠ some (s.map Char.toNat)) : ComesTo failure points :=
  ⟨none, rfl, fun s => iff_of_false nofun (missing s)⟩

theorem ComesTo.refused : ComesTo failure none := .absent nofun

theorem map_toNat_inj {s s' : Text} : s.map Char.toNat = s'.map Char.toNat ↔ s = s' :=
  List.map_inj_right fun _ _ => Char.toNat_inj.mp

theorem ComesTo.done (s : Text) : ComesTo (pure s) (some (s.map Char.toNat)) := by
  refine ⟨some s, rfl, fun s' => ?_⟩
  rw [Option.some_inj, Option.some_inj]
  exact map_toNat_inj.symm

theorem ComesTo.unless {c : Prop} [Decidable c] {run : Run Text} {points : Option (List Nat)}
    (other : ¬ c → ComesTo run points) :
    ComesTo (if c then failure else run) (if c then none else points) := by
  by_cases h : c
  · rw [if_pos h, if_pos h]
    exact .refused
  · rw [if_neg h, if_neg h]
    exact other h

/-- The loop over the deltas does not panic, and comes to what is to be decoded. -/
theorem decodeIn_comesTo {fuel n i bias : Nat} {out digits : Text} (turns : digits.length ≤ fuel)
    (small : bias + 26 < 2 ^ 32) (basic : Bootstring.initialN ≤ n) :
    ComesTo (decodeIn fuel n i bias out digits)
      (Bootstring.decodeFrom fits decodeDigit ⟨n, i, bias, out.map Char.toNat⟩ digits) := by
  induction fuel generalizing n i bias out digits with
  | zero =>
      have empty := List.length_eq_zero_iff.mp (Nat.le_zero.mp turns)
      rw [empty, decodeIn, if_pos rfl, Bootstring.decodeFrom_nil]
      exact .done out
  | succ fuel ih =>
      rw [decodeIn]
      by_cases done : digits = []
      · rw [done, if_pos rfl, Bootstring.decodeFrom_nil]
        exact .done out
      · have first : readDelta bias digits 1 base i = Run.ofOption
            (Bootstring.readInteger fits decodeDigit bias digits Bootstring.base 1 i) :=
          readDelta_eq (j := 0) small (by decide) (by decide)
        rw [if_neg done, Bootstring.decodeFrom_ne_nil done]
        dsimp only
        rw [first]
        cases read : Bootstring.readInteger fits decodeDigit bias digits Bootstring.base 1 i with
        | none => exact .refused
        | some r =>
            obtain ⟨i', rest⟩ := r
            obtain ⟨least, fit⟩ := Bootstring.readInteger_bounds read
            have shorter := Bootstring.readInteger_shortens read
            have delta : i' - i < 2 ^ 32 := by have fit := fits_iff.mp fit; omega
            have some : 0 < out.length + 1 := Nat.succ_pos _
            have inside := Nat.mod_lt i' some
            have bias' := Bootstring.adapt_le (i' - i) (out.length + 1) (i = 0)
            have inserted : (⟨n, i, bias, out.map Char.toNat⟩ : Bootstring.Decoder).insert i' =
                ⟨n + i' / (out.length + 1), i' % (out.length + 1) + 1,
                  Bootstring.adapt (i' - i) (out.length + 1) (i = 0),
                  (out.map Char.toNat).insertIdx (i' % (out.length + 1))
                    (n + i' / (out.length + 1))⟩ := by
              rw [Bootstring.Decoder.insert, List.length_map]
            rw [Run.ofOption_some, pure_bind, checked_grow (· + 1) (fun _ => Nat.le_succ _)]
            simp only [Option.bind_some, inserted, List.length_map]
            apply ComesTo.unless
            intro len
            have len := fits_iff.mp (not_not.mp len)
            rw [Run.sub_of_le least, pure_bind, adapt_eq delta some, pure_bind,
              Run.div_of_pos some, pure_bind, checked_then]
            apply ComesTo.unless
            intro point
            have grown : Bootstring.initialN ≤ n + i' / (out.length + 1) :=
              le_trans basic (Nat.le_add_right _ _)
            rw [if_neg (Nat.not_lt.mpr grown), Run.rem_of_pos some, pure_bind]
            by_cases valid : (n + i' / (out.length + 1)).isValidChar
            · have placed : (out.insertIdx (i' % (out.length + 1))
                  (Char.ofNat (n + i' / (out.length + 1)))).map Char.toNat =
                  (out.map Char.toNat).insertIdx (i' % (out.length + 1))
                    (n + i' / (out.length + 1)) := by
                rw [List.map_insertIdx, Bootstring.toNat_ofNat valid]
              have next : i' % (out.length + 1) + 1 < 2 ^ 32 := by omega
              rw [fromU32, if_pos valid, Run.ofOption_some, pure_bind, Run.insert,
                if_pos (Nat.le_of_lt_succ inside), pure_bind, Run.checked_of_lt next,
                pure_bind, ← placed]
              exact ih (by omega) (by omega) grown
            · rw [fromU32, if_neg valid]
              apply ComesTo.absent
              intro s decoded
              obtain ⟨c, _, same⟩ := List.mem_map.mp (Bootstring.decodeFrom_keeps decoded _
                ((List.mem_insertIdx (by rw [List.length_map]; omega)).mpr (Or.inl rfl)))
              exact valid (same ▸ c.valid)

theorem decodePunycode_comesTo {payload : Text} (ascii : payload.isAscii = true) :
    ComesTo (decodePunycode payload) (Bootstring.decodeFrom fits decodeDigit
      (Bootstring.start ((rsplitOnce '-' payload).getD ([], payload)).1)
      ((rsplitOnce '-' payload).getD ([], payload)).2) := by
  rw [decodePunycode, if_neg (not_not.mpr ascii)]
  exact decodeIn_comesTo (le_refl _) (by decide) (le_refl _)

/-- No payload makes the decoder panic. -/
theorem decodePunycode_total (payload : Text) : ∃ r, (decodePunycode payload).run = some r := by
  by_cases ascii : payload.isAscii = true
  · obtain ⟨r, said, _⟩ := decodePunycode_comesTo ascii
    exact ⟨r, said⟩
  · exact ⟨none, by rw [decodePunycode, if_pos ascii]; rfl⟩

/-- A payload without a delimiter that nothing precedes: the last one is taken there too. -/
def pastDelimiter : Text → Text
  | '-' :: rest => if '-' ∈ rest then '-' :: rest else rest
  | payload => payload

def LowerAscii (c : Char) : Prop := c.toNat < 128 ∧ ¬ ('A' ≤ c ∧ c ≤ 'Z')

theorem isAscii_of_lower {payload : Text} (lower : ∀ c ∈ payload, LowerAscii c) :
    payload.isAscii = true :=
  List.all_eq_true.mpr fun c member => decide_eq_true (lower c member).1

theorem decodeDigit_eq {c : Char} (lower : LowerAscii c) :
    decodeDigit c = Bootstring.digitValue c := by
  rw [decodeDigit, Bootstring.digitValue, if_neg lower.2]

theorem pastDelimiter_alone {rest : Text} (clean : '-' ∉ rest) :
    pastDelimiter ('-' :: rest) = rest :=
  if_neg clean

theorem pastDelimiter_eq {payload : Text} (other : ∀ rest, payload = '-' :: rest → '-' ∈ rest) :
    pastDelimiter payload = payload := by
  unfold pastDelimiter
  split
  · rename_i rest
    exact if_pos (other rest rfl)
  · rfl

/-- The parts of a payload are those of the procedure, past such a delimiter. -/
theorem split_eq (payload : Text) : (rsplitOnce '-' payload).getD ([], payload) =
    Bootstring.splitLast (pastDelimiter payload) := by
  cases cut : rsplitOnce '-' payload with
  | none =>
      have clean := Text.rsplitOnce_eq_none.mp cut
      rw [pastDelimiter_eq, Bootstring.splitLast_clean clean]
      · rfl
      · intro rest parts
        rw [parts] at clean
        exact absurd List.mem_cons_self clean
  | some parts =>
      obtain ⟨literal, rest⟩ := parts
      obtain ⟨clean, rfl⟩ := Text.rsplitOnce_eq_some.mp cut
      cases literal with
      | nil =>
          rw [List.nil_append, pastDelimiter_alone clean, Bootstring.splitLast_clean clean]
          rfl
      | cons c literal =>
          have parts : Bootstring.splitLast (c :: literal ++ '-' :: rest) = (c :: literal, rest) :=
            Bootstring.splitLast_append (List.cons_ne_nil c literal) clean
          rw [pastDelimiter_eq, parts]
          · rfl
          · intro rest' parts
            rw [List.cons_append] at parts
            rw [← (List.cons.inj parts).2]
            exact List.mem_append_right _ List.mem_cons_self

theorem mem_of_split {payload : Text} {c : Char}
    (member : c ∈ ((rsplitOnce '-' payload).getD ([], payload)).1) : c ∈ payload := by
  cases cut : rsplitOnce '-' payload with
  | none =>
      rw [cut] at member
      cases member
  | some parts =>
      obtain ⟨literal, rest⟩ := parts
      obtain ⟨_, rfl⟩ := Text.rsplitOnce_eq_some.mp cut
      rw [cut] at member
      exact List.mem_append_left _ member

/-- A payload decodes as the procedure has it, past such a delimiter. -/
theorem decodePunycode_iff {payload : Text} (ascii : payload.isAscii = true) (s : Text) :
    (decodePunycode payload).run = some (some s) ↔
      Bootstring.decode fits decodeDigit (pastDelimiter payload) = some (s.map Char.toNat) := by
  obtain ⟨r, said, same⟩ := decodePunycode_comesTo ascii
  have basic : (Bootstring.splitLast (pastDelimiter payload)).1.all
      (·.toNat < Bootstring.initialN) = true := by
    rw [← split_eq, List.all_eq_true]
    intro c member
    exact List.all_eq_true.mp ascii c (mem_of_split member)
  rw [said, Option.some_inj, same s, Bootstring.decode, if_pos basic, split_eq]

theorem decodeDigit_digitOf : ∀ d < Bootstring.base,
    decodeDigit (Bootstring.digitOf d) = Bootstring.digitValue (Bootstring.digitOf d) := by
  decide

/-- The encoding of a string, in numbers of any size. -/
def encodePunycode (s : Text) : Text := Bootstring.encode (s.map Char.toNat)

theorem encode_past (s : List Nat) : pastDelimiter (Bootstring.encode s) = Bootstring.encode s := by
  apply pastDelimiter_eq
  intro rest parts
  by_contra clean
  have cut : Bootstring.splitLast ('-' :: rest) = ([], '-' :: rest) :=
    Bootstring.splitLast_cons clean
  obtain ⟨digits, each, _, split⟩ := Bootstring.encode_parts s
  rw [parts, cut] at split
  obtain ⟨d, within, same⟩ := each '-' ((Prod.mk.inj split).2 ▸ List.mem_cons_self)
  exact Bootstring.digitOf_ne_delimiter d within same

theorem encode_ascii (s : List Nat) : Text.isAscii (Bootstring.encode s) = true := by
  rw [Text.isAscii, List.all_eq_true]
  intro c member
  exact decide_eq_true (Bootstring.encode_basic s c member)

/-- An encoding decodes as the procedure has it. -/
theorem decode_encode_iff (s s' : Text) :
    (decodePunycode (encodePunycode s)).run = some (some s') ↔
      Bootstring.decode fits Bootstring.digitValue (encodePunycode s) =
        some (s'.map Char.toNat) := by
  unfold encodePunycode
  rw [decodePunycode_iff (encode_ascii _), encode_past, Bootstring.decode_congr]
  intro c member
  obtain ⟨digits, each, _, split⟩ := Bootstring.encode_parts (s.map Char.toNat)
  rw [split] at member
  obtain ⟨d, within, rfl⟩ := each c member
  exact decodeDigit_digitOf d within

theorem scalar_lt (s : Text) : ∀ c ∈ s.map Char.toNat, c < 0x110000 := by
  intro c member
  obtain ⟨c, _, rfl⟩ := List.mem_map.mp member
  have valid := c.valid
  unfold UInt32.isValidChar Nat.isValidChar at valid
  rw [Char.toNat]
  omega

/-- It gives the string again, unless a number of it is larger than a word. -/
theorem decode_encode (s : Text) : (decodePunycode (encodePunycode s)).run = some (some s) ↔
    ∀ v ∈ Bootstring.numbers Bootstring.digitValue (encodePunycode s), v < 2 ^ 32 := by
  have unbounded : Bootstring.decode (fun _ => true) Bootstring.digitValue (encodePunycode s) =
      some (s.map Char.toNat) :=
    Bootstring.decode_encode Bootstring.digitValue_digitOf (scalar_lt s) fun _ _ => rfl
  rw [decode_encode_iff, Bootstring.decode_iff, unbounded]
  simp only [true_and, fits_iff]

/-- So it does of a string of up to 110 characters. -/
theorem decode_encode_short {s : Text} (short : s.length ≤ 110) :
    (decodePunycode (encodePunycode s)).run = some (some s) := by
  apply (decode_encode_iff s s).mpr
  apply Bootstring.decode_encode Bootstring.digitValue_digitOf (scalar_lt s)
  intro v most
  rw [List.length_map] at most
  exact fits_iff.mpr (by omega)

/-- Every payload is decoded or refused, without a panic. One of lower case decodes as the
procedure of RFC 3492 has it, which refuses one that begins with its last delimiter: there that
delimiter is left out. An encoding decodes to its string unless a number of it is larger than a
word, as none is up to 110 characters. -/
theorem decodePunycode_decodes (payload s : Text) :
    (∃ r, (decodePunycode payload).run = some r) ∧
    ((∀ c ∈ payload, LowerAscii c) → (∀ rest, payload = '-' :: rest → '-' ∈ rest) →
      ((decodePunycode payload).run = some (some s) ↔
        Bootstring.decode fits Bootstring.digitValue payload = some (s.map Char.toNat))) ∧
    ((∀ c ∈ payload, LowerAscii c) → ∀ rest, payload = '-' :: rest → '-' ∉ rest →
      Bootstring.decode fits Bootstring.digitValue payload = none ∧
      ((decodePunycode payload).run = some (some s) ↔
        Bootstring.decode fits Bootstring.digitValue rest = some (s.map Char.toNat))) ∧
    ((decodePunycode (encodePunycode s)).run = some (some s) ↔
      ∀ v ∈ Bootstring.numbers Bootstring.digitValue (encodePunycode s), v < 2 ^ 32) ∧
    (s.length ≤ 110 → (decodePunycode (encodePunycode s)).run = some (some s)) := by
  refine ⟨decodePunycode_total payload, ?_, ?_, decode_encode s, decode_encode_short⟩
  · intro lower other
    rw [decodePunycode_iff (isAscii_of_lower lower), pastDelimiter_eq other,
      Bootstring.decode_congr fun c member =>
        decodeDigit_eq (lower c (Bootstring.mem_of_splitLast member))]
  · rintro lower rest rfl clean
    have later : ∀ c ∈ rest, LowerAscii c := fun c member => lower c (List.mem_cons_of_mem _ member)
    have refused : Bootstring.decode fits Bootstring.digitValue ('-' :: rest) = none :=
      Bootstring.decode_delimiter clean rfl
    refine ⟨refused, ?_⟩
    rw [decodePunycode_iff (isAscii_of_lower lower), pastDelimiter_alone clean,
      Bootstring.decode_congr fun c member =>
        decodeDigit_eq (later c (Bootstring.mem_of_splitLast member))]

theorem decodePunycode_decodes_one :
    (decodePunycode (encodePunycode ['ü'])).run = some (some ['ü']) :=
  (decodePunycode_decodes [] ['ü']).2.2.2.2 (by decide)

/-! ## Where it is not the procedure -/

/-- A scan past code points that are behind it. -/
theorem foldl_behind (b m : Nat) (s : List Nat) (behind : ∀ c ∈ s, c < m)
    (enc : Bootstring.Encoder) : s.foldl (Bootstring.scanPoint b m) enc =
      { enc with delta := enc.delta + s.length } := by
  induction s generalizing enc with
  | nil => rfl
  | cons c s ih =>
      have first := behind c List.mem_cons_self
      rw [List.foldl_cons, Bootstring.scanPoint, if_pos first,
        ih fun c member => behind c (List.mem_cons_of_mem _ member)]
      simp only [List.length_cons, Nat.add_assoc, Nat.add_comm 1]

/-- What an encoder writes of two characters behind plain ones. -/
theorem encode_two {s : List Nat} {x y : Nat} (plain : ∀ c ∈ s, c < Bootstring.initialN)
    (some : s ≠ []) (first : Bootstring.initialN ≤ x) (second : x < y) :
    Bootstring.encode (s ++ [x, y]) = s.map Char.ofNat ++ '-' ::
      (Bootstring.writeInteger 72 36 ((x - 128) * (s.length + 1) + s.length) ++
        Bootstring.writeInteger
          (Bootstring.adapt ((x - 128) * (s.length + 1) + s.length) (s.length + 1) true) 36
          ((y - x) * (s.length + 2))) := by
  have under : ∀ c ∈ s, c < x := fun c member => lt_of_lt_of_le (plain c member) first
  have under' : ∀ c ∈ s, c < y := fun c member => lt_trans (under c member) second
  have basic : (s ++ [x, y]).filter (· < Bootstring.initialN) = s := by
    have high : ¬ y < Bootstring.initialN := by omega
    rw [List.filter_append, List.filter_eq_self.mpr fun c member => decide_eq_true (plain c member)]
    simp [Nat.not_lt.mpr first, high]
  have length : (s ++ [x, y]).length = s.length + 2 := by simp
  have least : ((s ++ [x, y]).filter (Bootstring.initialN ≤ ·)).min? = Option.some x := by
    apply List.min?_eq_some_iff.mpr
    constructor
    · simp [first]
    · intro c member
      obtain ⟨there, high⟩ := List.mem_filter.mp member
      have high := of_decide_eq_true high
      rcases List.mem_append.mp there with there | there
      · exact absurd (plain c there) (Nat.not_lt.mpr high)
      · simp at there
        omega
  have least' : ((s ++ [x, y]).filter (x + 1 ≤ ·)).min? = Option.some y := by
    apply List.min?_eq_some_iff.mpr
    constructor
    · simp [second]
    · intro c member
      obtain ⟨there, high⟩ := List.mem_filter.mp member
      have high := of_decide_eq_true high
      rcases List.mem_append.mp there with there | there
      · exact absurd (under c there) (by omega)
      · simp at there
        omega
  have scanned : Bootstring.scan (s ++ [x, y]) s.length Bootstring.initialN x
      ⟨0, Bootstring.initialBias, s.length, []⟩ =
      ⟨1, Bootstring.adapt ((x - 128) * (s.length + 1) + s.length) (s.length + 1) true,
        s.length + 1, Bootstring.writeInteger 72 36 ((x - 128) * (s.length + 1) + s.length)⟩ := by
    have later : ¬ y < x := by omega
    have other : y ≠ x := by omega
    rw [Bootstring.scan, List.foldl_append, foldl_behind s.length x s under]
    simp [Bootstring.scanPoint, later, other, Bootstring.initialN, Bootstring.initialBias,
      Bootstring.base]
  have scanned' (bias : Nat) (digits : Text) : Bootstring.scan (s ++ [x, y]) s.length (x + 1) y
      ⟨1, bias, s.length + 1, digits⟩ =
      ⟨1, Bootstring.adapt ((y - x) * (s.length + 2)) (s.length + 2) false, s.length + 2,
        digits ++ Bootstring.writeInteger bias 36 ((y - x) * (s.length + 2))⟩ := by
    have steps : 1 + (y - (x + 1)) * (s.length + 1 + 1) + s.length + 1 =
        (y - x) * (s.length + 2) := by
      obtain ⟨d, rfl⟩ := Nat.exists_eq_add_of_lt second
      rw [show x + d + 1 - (x + 1) = d by omega, show x + d + 1 - x = d + 1 by omega, Nat.succ_mul,
        show s.length + 1 + 1 = s.length + 2 from rfl]
      omega
    rw [Bootstring.scan, List.foldl_append, foldl_behind s.length y s under']
    simp [Bootstring.scanPoint, second, steps, Bootstring.base]
  unfold Bootstring.encode
  rw [basic]
  simp only [if_neg some]
  rw [Bootstring.encodeFrom_next (by rw [length]; simp) least, scanned,
    Bootstring.encodeFrom_next (by rw [length]; simp) least', scanned',
    Bootstring.encodeFrom_done (by rw [length]; simp)]
  simp [Bootstring.delimiter]

/-- An integer that brings the decoder past what fits is refused. -/
theorem readInteger_over {bias i q : Nat} (past : ¬ fits (i + q) = true) :
    Bootstring.readInteger fits Bootstring.digitValue bias
      (Bootstring.writeInteger bias Bootstring.base q) Bootstring.base 1 i = none := by
  have written : Bootstring.readInteger (fun _ => true) Bootstring.digitValue bias
      (Bootstring.writeInteger bias Bootstring.base q ++ []) Bootstring.base 1 i =
        some (i + q * 1, []) :=
    Bootstring.readInteger_write Bootstring.digitValue_digitOf q (by decide) (fun _ _ => rfl)
  rw [List.append_nil, Nat.mul_one] at written
  apply Option.eq_none_iff_forall_ne_some.mpr
  rintro ⟨i', rest⟩ read
  have same := (Bootstring.readInteger_iff.mp read).1
  rw [written] at same
  cases same
  exact past (Bootstring.readInteger_bounds read).2

/-- The second of two such characters is too far to go on to. -/
theorem decode_two {s : List Nat} {y : Nat} (plain : ∀ c ∈ s, c < Bootstring.initialN)
    (some : s ≠ []) (few : s.length < 2 ^ 20) (second : Bootstring.initialN < y)
    (past : 2 ^ 32 ≤ s.length + 1 + (y - Bootstring.initialN) * (s.length + 2)) :
    Bootstring.decode fits Bootstring.digitValue
      (Bootstring.encode (s ++ [Bootstring.initialN, y])) = none := by
  have back : (s.map Char.ofNat).map Char.toNat = s := by
    have same := Bootstring.map_ofNat_basic s
    rwa [List.filter_eq_self.mpr fun c member => decide_eq_true (plain c member)] at same
  have basic := Bootstring.literal_basic s
  rw [List.filter_eq_self.mpr fun c member => decide_eq_true (plain c member)] at basic
  have clean (bias bias' q q' : Nat) : Bootstring.delimiter ∉
      Bootstring.writeInteger bias 36 q ++ Bootstring.writeInteger bias' 36 q' := by
    intro member
    rcases List.mem_append.mp member with member | member
    all_goals
      obtain ⟨d, within, same⟩ := Bootstring.writeInteger_digits _ _ _ _ member
      exact Bootstring.digitOf_ne_delimiter d within same
  have begun : Bootstring.start (s.map Char.ofNat) = ⟨Bootstring.initialN, 0, 72, s⟩ := by
    rw [Bootstring.start, back, Bootstring.initialBias]
  have placed : (⟨Bootstring.initialN, 0, 72, s⟩ : Bootstring.Decoder).insert (0 + s.length) =
      ⟨Bootstring.initialN, s.length + 1, Bootstring.adapt s.length (s.length + 1) true,
        s ++ [Bootstring.initialN]⟩ := by
    have placed := @Bootstring.insert_at ⟨Bootstring.initialN, 0, 72, s⟩ s []
      (List.append_nil s).symm Bootstring.initialN (0 + s.length) (le_refl _)
      (by rw [Nat.sub_self, Nat.zero_mul])
    rw [placed, Nat.zero_add]
    rfl
  have first (rest : Text) : Bootstring.decodeFrom fits Bootstring.digitValue
      ⟨Bootstring.initialN, 0, 72, s⟩ (Bootstring.writeInteger 72 36 s.length ++ rest) =
      Bootstring.decodeFrom fits Bootstring.digitValue
        ⟨Bootstring.initialN, s.length + 1, Bootstring.adapt s.length (s.length + 1) true,
          s ++ [Bootstring.initialN]⟩ rest := by
    rw [← placed]
    apply Bootstring.decodeFrom_write Bootstring.digitValue_digitOf s.length rest (le_refl _)
    · intro v most
      exact fits_iff.mpr (by dsimp only at most; omega)
    · exact fits_iff.mpr (by dsimp only; omega)
    · dsimp only
      rw [placed]
      exact fits_iff.mpr (by decide : Bootstring.initialN < 2 ^ 32)
  have far : ¬ fits (s.length + 1 + (y - Bootstring.initialN) * (s.length + 2)) = true := by
    rw [fits_iff]
    omega
  have steps : (Bootstring.initialN - 128) * (s.length + 1) + s.length = s.length := by
    rw [Bootstring.initialN, Nat.sub_self, Nat.zero_mul, Nat.zero_add]
  have parts : Bootstring.splitLast (s.map Char.ofNat ++ '-' ::
      (Bootstring.writeInteger 72 36 s.length ++ Bootstring.writeInteger
        (Bootstring.adapt s.length (s.length + 1) true) 36
          ((y - Bootstring.initialN) * (s.length + 2)))) = _ :=
    Bootstring.splitLast_append (mt List.map_eq_nil_iff.mp some) (clean _ _ _ _)
  rw [encode_two plain some (le_refl _) second, steps, Bootstring.decode, parts, if_pos basic,
    begun, first, Bootstring.decodeFrom_ne_nil (Bootstring.writeInteger_ne_nil _ _ _)]
  exact congrArg (Option.bind · _) (readInteger_over far)

/-- A string of 5000 characters: no step of its encoding is larger than a word, one of its
decoding is. -/
def farther : Text := List.replicate 4998 'a' ++ [Char.ofNat 128, Char.ofNat 859121]

/-- A delimiter that nothing precedes is taken, and not every encoding decodes to its string. -/
theorem procedure_is_not_followed :
    ¬ (∀ payload s : Text, (∀ c ∈ payload, LowerAscii c) →
      ((decodePunycode payload).run = some (some s) ↔
        Bootstring.decode fits Bootstring.digitValue payload = some (s.map Char.toNat))) ∧
    ¬ (∀ s : Text, (∃ c ∈ s, 128 ≤ c.toNat) →
      (decodePunycode (encodePunycode s)).run = some (some s)) := by
  constructor
  · intro claimed
    have lower : ∀ c ∈ ['-'], LowerAscii c := by
      rw [List.forall_mem_singleton]
      exact ⟨by decide, by decide⟩
    have refused : Bootstring.decode fits Bootstring.digitValue ['-'] = none :=
      Bootstring.decode_delimiter List.not_mem_nil rfl
    have decoded : (decodePunycode ['-']).run = some (some []) := by decide
    have both := (claimed ['-'] [] lower).mp decoded
    rw [refused] at both
    cases both
  · intro claimed
    have points : farther.map Char.toNat =
        List.replicate 4998 97 ++ [Bootstring.initialN, 859121] := by
      rw [farther, List.map_append, List.map_replicate]
      rfl
    have refused :
        Bootstring.decode fits Bootstring.digitValue (encodePunycode farther) = none := by
      rw [encodePunycode, points]
      apply decode_two
      · intro c member
        rw [List.eq_of_mem_replicate member]
        decide
      · exact List.cons_ne_nil _ _
      · rw [List.length_replicate]
        decide
      · decide
      · rw [List.length_replicate]
        decide
    have member : Char.ofNat 859121 ∈ farther := List.mem_append_right _ (by simp)
    have back := claimed farther ⟨Char.ofNat 859121, member, by decide⟩
    rw [decode_encode_iff, refused] at back
    cases back

end HClient.Idn
