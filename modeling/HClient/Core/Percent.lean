import HClient.Core.Bytes
import HClient.Core.Cuts

/-!
# Percent-encoding

A character beyond ASCII written as the escaped bytes of its UTF-8, and nothing else touched. No
delimiter of a URI comes or goes with that, so the encoding goes slice by slice.
-/
namespace HClient
namespace Text

def isAscii (s : Text) : Bool := s.all fun c => c.toNat < 128

/-- The characters that RFC 3986 calls `gen-delims`. -/
def delimiters : List Char := [':', '/', '?', '#', '[', ']', '@']

def hexDigits : List Char :=
  ['0', '1', '2', '3', '4', '5', '6', '7', '8', '9', 'A', 'B', 'C', 'D', 'E', 'F']

def hexDigit (n : Nat) : Char := (hexDigits[n]?).getD '0'

def percentByte (b : UInt8) : Text := ['%', hexDigit (b.toNat / 16), hexDigit (b.toNat % 16)]

def percentChar (c : Char) : Text :=
  if c.toNat < 128 then [c] else (String.utf8EncodeChar c).flatMap percentByte

/-- `utf8_percent_encode` with the empty set. -/
def percentEncode (s : Text) : Text := s.flatMap percentChar

example : percentEncode "/café?a b%20".toList = "/caf%C3%A9?a b%20".toList := by decide

variable {s t stops : Text} {c d : Char}

@[simp] theorem percentEncode_nil : percentEncode [] = [] := rfl

@[simp] theorem percentEncode_append (s t : Text) :
    percentEncode (s ++ t) = percentEncode s ++ percentEncode t :=
  List.flatMap_append

theorem percentEncode_cons (c : Char) (s : Text) :
    percentEncode (c :: s) = percentChar c ++ percentEncode s := rfl

theorem percentChar_ascii (ascii : c.toNat < 128) : percentChar c = [c] := if_pos ascii

theorem percentEncode_cons_ascii (ascii : c.toNat < 128) (s : Text) :
    percentEncode (c :: s) = c :: percentEncode s := by
  rw [percentEncode_cons, percentChar_ascii ascii, List.singleton_append]

theorem percentEncode_ascii (ascii : s.isAscii = true) : percentEncode s = s := by
  induction s with
  | nil => rfl
  | cons c s ih =>
      rw [isAscii, List.all_cons, Bool.and_eq_true, decide_eq_true_eq] at ascii
      rw [percentEncode_cons_ascii ascii.1, ih ascii.2]

/-- What stands in for a character is an escape. -/
theorem percentChar_escape (wide : ¬ c.toNat < 128) : ∃ t, percentChar c = '%' :: t := by
  rw [percentChar, if_neg wide]
  cases encoded : String.utf8EncodeChar c with
  | nil => exact absurd encoded String.utf8EncodeChar_ne_nil
  | cons b bytes => exact ⟨_, rfl⟩

theorem mem_percentChar (member : d ∈ percentChar c) :
    d = c ∧ c.toNat < 128 ∨ d ∈ '%' :: hexDigits := by
  by_cases ascii : c.toNat < 128
  · rw [percentChar_ascii ascii, List.mem_singleton] at member
    exact .inl ⟨member, ascii⟩
  · rw [percentChar, if_neg ascii, List.mem_flatMap] at member
    obtain ⟨b, -, member⟩ := member
    have digits : ∀ n < 16, hexDigit n ∈ '%' :: hexDigits := by decide
    have high : b.toNat / 16 < 16 := by
      have := b.toNat_lt
      omega
    have low : b.toNat % 16 < 16 := Nat.mod_lt _ (by decide)
    refine .inr ?_
    simp only [percentByte, List.mem_cons, List.not_mem_nil, or_false] at member
    rcases member with rfl | rfl | rfl
    · exact List.mem_cons_self
    · exact digits _ high
    · exact digits _ low

theorem isAscii_percentEncode (s : Text) : (percentEncode s).isAscii = true := by
  rw [isAscii, List.all_eq_true]
  intro d member
  obtain ⟨c, -, member⟩ := List.mem_flatMap.mp member
  rcases mem_percentChar member with ⟨rfl, ascii⟩ | escape
  · exact decide_eq_true ascii
  · have plain : isAscii ('%' :: hexDigits) = true := by decide
    exact List.all_eq_true.mp plain d escape

/-- An escape brings no character of these about. -/
theorem mem_percentEncode (plain : d ∉ '%' :: hexDigits) :
    d ∈ percentEncode s → d ∈ s := by
  intro member
  obtain ⟨c, there, member⟩ := List.mem_flatMap.mp member
  rcases mem_percentChar member with ⟨rfl, -⟩ | escape
  · exact there
  · exact absurd escape plain

/-- A text that is not ASCII is escaped somewhere. -/
theorem percent_mem (wide : s.isAscii = false) : '%' ∈ percentEncode s := by
  rw [isAscii, List.all_eq_false] at wide
  obtain ⟨c, member, wide⟩ := wide
  obtain ⟨t, escape⟩ := percentChar_escape (by simpa using wide)
  exact List.mem_flatMap.mpr ⟨c, member, by rw [escape]; exact List.mem_cons_self⟩

@[simp] theorem percentEncode_eq_nil : percentEncode s = [] ↔ s = [] := by
  cases s with
  | nil => simp
  | cons c s =>
      have nonempty : percentChar c ≠ [] := by
        by_cases ascii : c.toNat < 128
        · simp [percentChar_ascii ascii]
        · obtain ⟨t, escape⟩ := percentChar_escape ascii
          simp [escape]
      simp [percentEncode_cons, nonempty]

theorem head?_percentEncode (ascii : d.toNat < 128) (plain : d ≠ '%') :
    (percentEncode s).head? = some d ↔ s.head? = some d := by
  cases s with
  | nil => rfl
  | cons c s =>
      by_cases narrow : c.toNat < 128
      · rw [percentEncode_cons_ascii narrow]
        rfl
      · obtain ⟨t, escape⟩ := percentChar_escape narrow
        have wide : c ≠ d := fun same => narrow (same ▸ ascii)
        simp [percentEncode_cons, escape, plain.symm, wide]

/-- A character class that has neither the escape nor anything beyond ASCII sees the same. -/
theorem all_percentEncode {p : Char → Bool} (ascii : ∀ c, p c = true → c.toNat < 128)
    (escape : p '%' = false) : (percentEncode s).all p = s.all p := by
  cases narrow : s.isAscii with
  | true => rw [percentEncode_ascii narrow]
  | false =>
      have here : (percentEncode s).all p = false :=
        List.all_eq_false.mpr ⟨'%', percent_mem narrow, by simp [escape]⟩
      have there : s.all p = false := by
        obtain ⟨c, member, wide⟩ := List.all_eq_false.mp narrow
        exact List.all_eq_false.mpr ⟨c, member, fun kept => wide (decide_eq_true (ascii c kept))⟩
      rw [here, there]

/-! ## The slices of an encoded text -/

theorem disjoint_percentEncode (known : stops ⊆ delimiters) (free : stops.Disjoint s) : stops.Disjoint (percentEncode s) := by
  intro d stop member
  have plain : delimiters.all (fun d => d ∉ '%' :: hexDigits) = true := by decide
  have apart := List.all_eq_true.mp plain d (known stop)
  exact free stop (mem_percentEncode (of_decide_eq_true apart) member)

theorem toNat_delimiter (known : stops ⊆ delimiters) (stop : d ∈ stops) : d.toNat < 128 := by
  have ascii : isAscii delimiters = true := by decide
  exact of_decide_eq_true (List.all_eq_true.mp ascii d (known stop))

theorem upTo_percentEncode (known : stops ⊆ delimiters) (s : Text) :
    upTo stops (percentEncode s) = percentEncode (upTo stops s) := by
  have free := disjoint_percentEncode known (disjoint_upTo stops s)
  conv_lhs => rw [← upTo_append_onward stops s, percentEncode_append, upTo_append free]
  rcases onward_cases stops s with none | ⟨c, stop, rest, found⟩
  · rw [none, percentEncode_nil, upTo_nil, List.append_nil]
  · rw [found, percentEncode_cons_ascii (toNat_delimiter known stop), upTo_cons stop,
      List.append_nil]

theorem onward_percentEncode (known : stops ⊆ delimiters) (s : Text) :
    onward stops (percentEncode s) = percentEncode (onward stops s) := by
  have parts := upTo_append_onward stops (percentEncode s)
  conv_rhs at parts => rw [← upTo_append_onward stops s, percentEncode_append]
  exact List.append_cancel_left (upTo_percentEncode known s ▸ parts)

theorem behind_percentEncode (known : stops ⊆ delimiters) (s : Text) :
    behind stops (percentEncode s) = percentEncode (behind stops s) := by
  have free := disjoint_percentEncode known (disjoint_behind stops s)
  conv_lhs => rw [← through_append_behind stops s, percentEncode_append, behind_append free]
  rcases through_cases stops s with none | ⟨c, stop, before, found⟩
  · rw [none, percentEncode_nil, behind_of_disjoint (List.disjoint_nil_right _), List.nil_append]
  · rw [found, percentEncode_append, percentEncode_cons_ascii (toNat_delimiter known stop),
      percentEncode_nil, behind_stop stop (List.disjoint_nil_right _), List.nil_append]

theorem through_percentEncode (known : stops ⊆ delimiters) (s : Text) :
    through stops (percentEncode s) = percentEncode (through stops s) := by
  have parts := through_append_behind stops (percentEncode s)
  conv_rhs at parts => rw [← through_append_behind stops s, percentEncode_append]
  exact List.append_cancel_right (behind_percentEncode known s ▸ parts)

theorem prefix_of_percentEncode {start : Text} (known : start ⊆ delimiters)
    (same : percentEncode s = start ++ t) : ∃ rest, s = start ++ rest := by
  induction start generalizing s with
  | nil => exact ⟨s, rfl⟩
  | cons d start ih =>
      have ascii : d.toNat < 128 := toNat_delimiter known List.mem_cons_self
      have plain : d ≠ '%' := by
        rintro rfl
        exact absurd (known List.mem_cons_self) (by decide)
      have first : s.head? = some d := (head?_percentEncode ascii plain).mp (by rw [same]; rfl)
      obtain ⟨s', rfl⟩ : ∃ s', s = d :: s' := by
        cases s with
        | nil => cases first
        | cons c s' => exact ⟨s', by rw [Option.some.inj first]⟩
      rw [percentEncode_cons_ascii ascii, List.cons_append, List.cons_inj_right] at same
      obtain ⟨rest, rfl⟩ := ih (fun c member => known (List.mem_cons_of_mem _ member)) same
      exact ⟨rest, rfl⟩

theorem percentEncode_delimiters (known : stops ⊆ delimiters) : percentEncode stops = stops :=
  percentEncode_ascii <| List.all_eq_true.mpr fun _ stop =>
    decide_eq_true (toNat_delimiter known stop)

theorem stripPrefix_percentEncode {start : Text} (known : start ⊆ delimiters) (s : Text) :
    stripPrefix start (percentEncode s) = (stripPrefix start s).map percentEncode := by
  cases found : stripPrefix start s with
  | some t =>
      rw [stripPrefix_eq_some] at found
      rw [found, percentEncode_append, percentEncode_delimiters known]
      exact stripPrefix_eq_some.mpr rfl
  | none =>
      cases other : stripPrefix start (percentEncode s) with
      | none => rfl
      | some t =>
          obtain ⟨rest, same⟩ := prefix_of_percentEncode known (stripPrefix_eq_some.mp other)
          rw [stripPrefix_eq_some.mpr same] at found
          cases found

end Text
end HClient
