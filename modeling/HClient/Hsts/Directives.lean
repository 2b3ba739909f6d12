import HClient.Core.Header
import HClient.Core.Words

/-!
# The `Strict-Transport-Security` grammar

`hsts::parse`: the grammar reads names and values and judges neither; `Directives.parse`
judges the list. Every refusal is of the whole field value.
-/
namespace HClient.Hsts

/-- What one well-formed field value said; `maxAge` is in seconds and saturates at `u64`. -/
structure Directives where
  maxAge : Nat
  includeSubdomains : Bool
  deriving DecidableEq, Repr

/-- One directive as written. An absent name is the empty one. -/
structure Raw where
  name : Text
  value : Option Text

def directiveValue (i : Text) : Option (Text × Text) :=
  match Field.ows i with
  | '=' :: i => Field.quotedString (Field.ows i) <|> Field.token (Field.ows i)
  | _ => none

def rawDirective (i : Text) : Raw × Text :=
  let (name, i) := (Field.token i).getD ([], i)
  match directiveValue i with
  | some (value, i) => (⟨name, some value⟩, i)
  | none => (⟨name, none⟩, i)

/-- `separated(0.., raw_directive, (ows, ';', ows))`. Each separator takes a character, so
the length of the input is fuel enough. -/
def rawDirectives : Nat → Text → List Raw × Text
  | 0, i => ([(rawDirective i).1], (rawDirective i).2)
  | fuel + 1, i =>
      let (first, i) := rawDirective i
      match Field.ows i with
      | ';' :: i' =>
          let (others, rest) := rawDirectives fuel (Field.ows i')
          (first :: others, rest)
      | _ => ([first], i)

def u64Max : Nat := 2 ^ 64 - 1

/-- `v.parse::<u64>().unwrap_or(u64::MAX)` for a `v` of digits only. -/
def parseU64Saturating (digits : Text) : Nat :=
  min (digits.foldl (fun acc c => acc * 10 + (c.toNat - '0'.toNat)) 0) u64Max

/-- One turn of the loop over the directives, on what `max_age` and `include_subdomains`
hold so far. -/
def judge (found : Option Nat × Option Bool) (raw : Raw) : Option (Option Nat × Option Bool) :=
  if Text.eqIgnoreAsciiCase raw.name "max-age".toList then
    match raw.value with
    | none => none
    | some v =>
        if v = [] ∨ ¬ v.all Text.isAsciiDigit then none
        else if found.1.isSome then none
        else some (some (parseU64Saturating v), found.2)
  else if Text.eqIgnoreAsciiCase raw.name "includesubdomains".toList then
    if raw.value.isSome then none
    else if found.2.isSome then none
    else some (found.1, some true)
  else some found

def Directives.parse (value : Text) : Option Directives :=
  let (list, input) := rawDirectives value.length value
  if Field.ows input ≠ [] then none
  else
    match list.foldlM judge (none, none) with
    | some (some maxAge, includeSubdomains) => some ⟨maxAge, includeSubdomains.getD false⟩
    | _ => none

example : Directives.parse "max-age=31536000; includeSubDomains; preload".toList =
    some ⟨31536000, true⟩ := by decide
example : Directives.parse "max-age=1; max-age=2".toList = none ∧
    Directives.parse "includeSubDomains".toList = none ∧
    Directives.parse "max-age=\"7\";".toList = some ⟨7, false⟩ := by decide

end HClient.Hsts

/-!
## What the grammar accepts

RFC 6797 section 6.1's grammar as a relation between a field value and its directives, what the
directives say together, and the parser's reading of the same: it takes the grammar's values, and
those in which a value stands without a name.
-/
namespace HClient.Hsts

open HClient.Field

/-- Spaces and tabs only. -/
def Blank (s : Text) : Prop := ∀ c ∈ s, c = ' ' ∨ c = '\t'

instance (s : Text) : Decidable (Blank s) := inferInstanceAs (Decidable (∀ c ∈ s, _))

def IsToken (s : Text) : Prop := s ≠ [] ∧ ∀ c ∈ s, isTokenChar c = true

instance (s : Text) : Decidable (IsToken s) := inferInstanceAs (Decidable (_ ∧ ∀ c ∈ s, _))

/-- A text and what stands between the quotes of a quoted string for it. -/
inductive Escaped : Text → Text → Prop
  | nil : Escaped [] []
  | char {c : Char} {s written : Text} : c ≠ '"' → c ≠ '\\' → Escaped s written →
      Escaped (c :: s) (c :: written)
  | pair {s written : Text} (c : Char) : Escaped s written →
      Escaped (c :: s) ('\\' :: c :: written)

/-- A value and how it is written. -/
inductive Written : Text → Text → Prop
  | token {s : Text} : IsToken s → Written s s
  | quoted {s written : Text} : Escaped s written → Written s ('"' :: (written ++ ['"']))

/-- An optional directive and how it is written. Only a loose reading takes a value without a
name. -/
inductive Part (loose : Bool) : Option Raw → Text → Prop
  | absent : Part loose none []
  | bare {name : Text} : IsToken name → Part loose (some ⟨name, none⟩) name
  | valued {name before after value written : Text} : IsToken name → Blank before → Blank after →
      Written value written →
      Part loose (some ⟨name, some value⟩) (name ++ (before ++ '=' :: (after ++ written)))
  | nameless {after value written : Text} : loose = true → Blank after → Written value written →
      Part loose (some ⟨[], some value⟩) ('=' :: (after ++ written))

/-- `[ directive ] *( ";" [ directive ] )`. -/
inductive Listed (loose : Bool) : List (Option Raw) → Text → Prop
  | one {d : Option Raw} {part : Text} : Part loose d part → Listed loose [d] part
  | more {d : Option Raw} {ds : List (Option Raw)} {part before after rest : Text} :
      Part loose d part → Blank before → Blank after → Listed loose ds rest →
      Listed loose (d :: ds) (part ++ (before ++ ';' :: (after ++ rest)))

/-- The number a run of digits stands for. -/
def numeral (digits : Text) : Nat :=
  Nat.ofDigits 10 (digits.reverse.map fun c => c.toNat - '0'.toNat)

def isMaxAge (raw : Raw) : Bool := Text.eqIgnoreAsciiCase raw.name "max-age".toList

def isIncludeSubDomains (raw : Raw) : Bool :=
  Text.eqIgnoreAsciiCase raw.name "includesubdomains".toList

/-- What the directives of a value say together: exactly one lifetime, in digits, and at most one
`includeSubDomains`, without a value. -/
structure Means (raws : List Raw) (d : Directives) : Prop where
  maxAge : ∃ raw digits, raws.filter isMaxAge = [raw] ∧ raw.value = some digits ∧ digits ≠ [] ∧
    digits.all Text.isAsciiDigit = true ∧ d.maxAge = min (numeral digits) u64Max
  includeSubdomains : (raws.filter isIncludeSubDomains = [] ∧ d.includeSubdomains = false) ∨
    ∃ raw, raws.filter isIncludeSubDomains = [raw] ∧ raw.value = none ∧
      d.includeSubdomains = true

/-- The value derives from the grammar, and this is what it says. -/
def Conforms (value : Text) (d : Directives) : Prop :=
  ∃ ds, Listed false ds value ∧ Means (ds.filterMap id) d

/-- No space or tab at either end. -/
def Trimmed (value : Text) : Prop :=
  (∀ c ∈ value.head?, ¬ (c = ' ' ∨ c = '\t')) ∧ ∀ c ∈ value.getLast?, ¬ (c = ' ' ∨ c = '\t')

instance (value : Text) : Decidable (Trimmed value) := inferInstanceAs (Decidable (_ ∧ _))

/-! ## The parts the parser takes -/

section Parts
variable {i s rest : Text}

theorem ows_split (i : Text) : ∃ lead, i = lead ++ ows i ∧ Blank lead := by
  refine ⟨i.takeWhile fun c => c = ' ' ∨ c = '\t', (List.takeWhile_append_dropWhile ..).symm, ?_⟩
  intro c member
  simpa using List.mem_takeWhile_imp member

theorem ows_solid (i : Text) : ∀ c ∈ (ows i).head?, ¬ (c = ' ' ∨ c = '\t') := by
  intro c there
  exact of_decide_eq_false (Runs.dropWhile_ends (fun c => decide (c = ' ' ∨ c = '\t')) i c there)

theorem ows_blank (blank : Blank s) (solid : ∀ c ∈ rest.head?, ¬ (c = ' ' ∨ c = '\t')) :
    ows (s ++ rest) = rest :=
  Runs.dropWhile_run (fun c member => decide_eq_true (blank c member))
    (fun c there => decide_eq_false (solid c there))

theorem token_sound {name : Text} (taken : token i = some (name, rest)) :
    i = name ++ rest ∧ IsToken name := by
  unfold token at taken
  split at taken
  · cases taken
  next some_ =>
    cases taken
    exact ⟨(List.takeWhile_append_dropWhile ..).symm, some_,
      fun c member => List.mem_takeWhile_imp member⟩

theorem token_complete {name : Text} (isToken : IsToken name)
    (ends : ∀ c ∈ rest.head?, isTokenChar c = false) : token (name ++ rest) = some (name, rest) := by
  rw [token, Runs.takeWhile_run isToken.2 ends, Runs.dropWhile_run isToken.2 ends,
    if_neg isToken.1]

theorem token_none (ends : ∀ c ∈ rest.head?, isTokenChar c = false) : token rest = none := by
  cases rest with
  | nil => rfl
  | cons c rest => rw [token, List.takeWhile_cons_of_neg (by simp [ends c rfl]), if_pos rfl]

theorem quotedBody_sound {body : Text} (taken : quotedBody i = some (body, rest)) :
    ∃ written, i = written ++ '"' :: rest ∧ Escaped body written := by
  fun_induction quotedBody i generalizing body with
  | case1 => cases taken
  | case2 =>
      cases taken
      exact ⟨[], rfl, .nil⟩
  | case3 c i ih =>
      obtain ⟨⟨inner, left⟩, found, same⟩ := Option.map_eq_some_iff.mp taken
      cases same
      obtain ⟨written, rfl, escaped⟩ := ih found
      exact ⟨'\\' :: c :: written, rfl, .pair c escaped⟩
  | case4 c i quote escape ih =>
      obtain ⟨⟨inner, left⟩, found, same⟩ := Option.map_eq_some_iff.mp taken
      cases same
      obtain ⟨written, rfl, escaped⟩ := ih found
      refine ⟨c :: written, rfl, .char quote ?_ escaped⟩
      rintro rfl
      cases written with
      | nil => exact escape '"' _ rfl rfl
      | cons d written => exact escape d _ rfl rfl

theorem quotedBody_complete {body written : Text} (escaped : Escaped body written) :
    quotedBody (written ++ '"' :: rest) = some (body, rest) := by
  induction escaped with
  | nil => rfl
  | char quote escape _ ih =>
      rw [List.cons_append, quotedBody.eq_4 _ _ quote (by simp [escape]), ih]
      rfl
  | pair c _ ih =>
      rw [List.cons_append, List.cons_append, quotedBody.eq_3, ih]
      rfl

theorem blank_not_token {before : Text} (blank : Blank before)
    (ends : ∀ c ∈ rest.head?, isTokenChar c = false) :
    ∀ c ∈ (before ++ rest).head?, isTokenChar c = false := by
  refine Runs.forall_head_run (fun c member => ?_) ends
  rcases blank c member with rfl | rfl <;> decide

/-- What can stand behind a part: the end, or a separator with blanks before it. -/
def Ends (rest : Text) : Prop :=
  rest = [] ∨ ∃ before more, Blank before ∧ rest = before ++ ';' :: more

theorem Ends.not_token (ends : Ends rest) : ∀ c ∈ rest.head?, isTokenChar c = false := by
  rcases ends with rfl | ⟨before, more, blank, rfl⟩
  · intro c none_
    cases none_
  · exact blank_not_token blank (Runs.forall_head (by decide))

theorem Ends.no_value (ends : Ends rest) : directiveValue rest = none := by
  rcases ends with rfl | ⟨before, more, blank, rfl⟩
  · rfl
  · have solid : ∀ c ∈ (';' :: more).head?, ¬ (c = ' ' ∨ c = '\t') :=
      Runs.forall_head (by decide)
    rw [directiveValue, ows_blank blank solid]
    rfl

theorem written_solid {value written : Text} (wrote : Written value written) (more : Text) :
    ∀ c ∈ (written ++ more).head?, ¬ (c = ' ' ∨ c = '\t') := by
  cases wrote with
  | quoted escaped => exact Runs.forall_head (by decide)
  | token isToken =>
      refine Runs.forall_head_append isToken.1 ?_ more
      intro c member
      rintro (rfl | rfl) <;> exact absurd (isToken.2 _ member) (by decide)

theorem value_sound {value : Text} (taken : (quotedString i <|> token i) = some (value, rest)) :
    ∃ written, i = written ++ rest ∧ Written value written := by
  cases read : quotedString i with
  | none =>
      rw [read] at taken
      obtain ⟨rfl, isToken⟩ := token_sound taken
      exact ⟨value, rfl, .token isToken⟩
  | some body =>
      rw [read] at taken
      have same : some body = some (value, rest) := taken
      cases same
      unfold quotedString at read
      split at read
      · obtain ⟨written, rfl, escaped⟩ := quotedBody_sound read
        exact ⟨'"' :: (written ++ ['"']), by simp, .quoted escaped⟩
      · cases read

theorem value_complete {value written : Text} (wrote : Written value written)
    (ends : ∀ c ∈ rest.head?, isTokenChar c = false) :
    (quotedString (written ++ rest) <|> token (written ++ rest)) = some (value, rest) := by
  cases wrote with
  | @quoted raw escaped =>
      have body : quotedBody (raw ++ '"' :: rest) = some (value, rest) :=
        quotedBody_complete escaped
      have whole : quotedString ('"' :: (raw ++ ['"']) ++ rest) = some (value, rest) := by
        rw [List.cons_append, List.append_assoc]
        exact body
      rw [whole]
      rfl
  | token isToken =>
      have unquoted : quotedString (value ++ rest) = none := by
        refine quotedString.eq_2 _ fun more same => ?_
        have first := Runs.forall_head_append isToken.1 isToken.2 rest '"' (by rw [same]; rfl)
        exact absurd first (by decide)
      rw [unquoted, token_complete isToken ends]
      rfl

theorem directiveValue_sound {value : Text} (taken : directiveValue i = some (value, rest)) :
    ∃ before after written, i = before ++ '=' :: (after ++ (written ++ rest)) ∧
      Blank before ∧ Blank after ∧ Written value written := by
  obtain ⟨before, split, blank⟩ := ows_split i
  unfold directiveValue at taken
  split at taken
  next j equals =>
    obtain ⟨after, split', blank'⟩ := ows_split j
    obtain ⟨written, same, wrote⟩ := value_sound taken
    refine ⟨before, after, written, ?_, blank, blank', wrote⟩
    rw [← same, ← split', ← equals, ← split]
  · cases taken

theorem directiveValue_complete {before after value written : Text} (blank : Blank before)
    (blank' : Blank after) (wrote : Written value written) (ends : Ends rest) :
    directiveValue (before ++ '=' :: (after ++ (written ++ rest))) = some (value, rest) := by
  have equals : ∀ c ∈ ('=' :: (after ++ (written ++ rest))).head?, ¬ (c = ' ' ∨ c = '\t') :=
    Runs.forall_head (by decide)
  rw [directiveValue, ows_blank blank equals]
  simp only [ows_blank blank' (written_solid wrote _)]
  exact value_complete wrote ends.not_token

/-- A part that is left out is read as one without a name and a value. -/
def rawOf (d : Option Raw) : Raw := d.getD ⟨[], none⟩

theorem rawDirective_sound (solid : ∀ c ∈ i.head?, ¬ (c = ' ' ∨ c = '\t')) :
    ∃ d part, i = part ++ (rawDirective i).2 ∧ Part true d part ∧ (rawDirective i).1 = rawOf d := by
  cases named : token i with
  | none =>
      cases valued : directiveValue i with
      | none =>
          have nothing : rawDirective i = (⟨[], none⟩, i) := by
            rw [rawDirective, named]
            simp only [Option.getD_none, valued]
          rw [nothing]
          exact ⟨none, [], rfl, .absent, rfl⟩
      | some taken =>
          obtain ⟨value, rest⟩ := taken
          have nameless : rawDirective i = (⟨[], some value⟩, rest) := by
            rw [rawDirective, named]
            simp only [Option.getD_none, valued]
          obtain ⟨before, after, written, same, blank, blank', wrote⟩ :=
            directiveValue_sound valued
          -- the blanks before the sign went with the separator
          obtain rfl : before = [] := by
            cases before with
            | nil => rfl
            | cons c before =>
                rw [same] at solid
                exact absurd (blank c List.mem_cons_self) (solid c rfl)
          rw [nameless]
          refine ⟨_, _, ?_, .nameless rfl blank' wrote, rfl⟩
          rw [same]
          simp
  | some taken =>
      obtain ⟨name, j⟩ := taken
      obtain ⟨same, isToken⟩ := token_sound named
      cases valued : directiveValue j with
      | none =>
          have bare : rawDirective i = (⟨name, none⟩, j) := by
            rw [rawDirective, named]
            simp only [Option.getD_some, valued]
          rw [bare]
          exact ⟨_, _, same, .bare isToken, rfl⟩
      | some taken =>
          obtain ⟨value, rest⟩ := taken
          have whole : rawDirective i = (⟨name, some value⟩, rest) := by
            rw [rawDirective, named]
            simp only [Option.getD_some, valued]
          obtain ⟨before, after, written, same', blank, blank', wrote⟩ :=
            directiveValue_sound valued
          rw [whole]
          refine ⟨_, _, ?_, .valued isToken blank blank' wrote, rfl⟩
          rw [same, same']
          simp

theorem rawDirective_complete {loose : Bool} {d : Option Raw} {part : Text}
    (reads : Part loose d part) (ends : Ends rest) :
    rawDirective (part ++ rest) = (rawOf d, rest) := by
  cases reads with
  | absent =>
      rw [List.nil_append, rawDirective, token_none ends.not_token]
      simp only [Option.getD_none, ends.no_value]
      rfl
  | bare isToken =>
      rw [rawDirective, token_complete isToken ends.not_token]
      simp only [Option.getD_some, ends.no_value]
      rfl
  | @valued name before after value written isToken blank blank' wrote =>
      have notToken : ∀ c ∈ (before ++ '=' :: (after ++ (written ++ rest))).head?,
          isTokenChar c = false := blank_not_token blank (Runs.forall_head (by decide))
      simp only [List.append_assoc, List.cons_append]
      rw [rawDirective, token_complete isToken notToken]
      simp only [Option.getD_some, directiveValue_complete blank blank' wrote ends]
      rfl
  | @nameless after value written _ blank wrote =>
      have notToken : ∀ c ∈ ('=' :: (after ++ (written ++ rest))).head?, isTokenChar c = false :=
        Runs.forall_head (by decide)
      have valued : directiveValue ('=' :: (after ++ (written ++ rest))) = some (value, rest) :=
        directiveValue_complete (fun c none_ => absurd none_ List.not_mem_nil) blank wrote ends
      simp only [List.append_assoc, List.cons_append]
      rw [rawDirective, token_none notToken]
      simp only [Option.getD_none, valued]
      rfl

end Parts

/-! ## The list -/

theorem rawDirectives_sound (fuel : Nat) {i : Text}
    (solid : ∀ c ∈ i.head?, ¬ (c = ' ' ∨ c = '\t')) :
    ∃ ds front, i = front ++ (rawDirectives fuel i).2 ∧ Listed true ds front ∧
      (rawDirectives fuel i).1 = ds.map rawOf := by
  induction fuel generalizing i with
  | zero =>
      obtain ⟨d, part, split, reads, raw⟩ := rawDirective_sound solid
      exact ⟨[d], part, split, .one reads, by rw [rawDirectives, raw]; rfl⟩
  | succ fuel ih =>
      obtain ⟨d, part, split, reads, raw⟩ := rawDirective_sound solid
      unfold rawDirectives
      dsimp only
      split
      next j semicolon =>
        obtain ⟨before, split', blank⟩ := ows_split (rawDirective i).2
        obtain ⟨after, split'', blank'⟩ := ows_split j
        obtain ⟨ds, front, split₃, listed, raws⟩ := ih (ows_solid j)
        refine ⟨d :: ds, _, ?_, .more reads blank blank' listed, by rw [raw, raws]; rfl⟩
        simp only [List.append_assoc, List.cons_append]
        rw [← split₃, ← split'', ← semicolon, ← split', ← split]
      · exact ⟨[d], part, split, .one reads, by rw [raw]; rfl⟩

theorem semicolon_solid (more : Text) :
    ∀ c ∈ (';' :: more).head?, ¬ (c = ' ' ∨ c = '\t') :=
  Runs.forall_head (by decide)

/-- The blanks in front of a part are those in front of its separator, where it is left out. -/
theorem ows_part {loose : Bool} {d : Option Raw} {part rest : Text} (reads : Part loose d part)
    (ends : Ends rest) :
    ∃ rest', Ends rest' ∧ ows rest' = ows rest ∧ ows (part ++ rest) = part ++ rest' := by
  have solidPart : (∀ c ∈ (part ++ rest).head?, ¬ (c = ' ' ∨ c = '\t')) →
      ∃ rest', Ends rest' ∧ ows rest' = ows rest ∧ ows (part ++ rest) = part ++ rest' :=
    fun solid => ⟨rest, ends, rfl, ows_blank (fun c none_ => absurd none_ List.not_mem_nil) solid⟩
  cases reads with
  | absent =>
      rcases ends with rfl | ⟨before, more, blank, rfl⟩
      · exact ⟨[], .inl rfl, rfl, rfl⟩
      · have stripped := ows_blank blank (semicolon_solid more)
        refine ⟨';' :: more, .inr ⟨[], more, fun c none_ => absurd none_ List.not_mem_nil, rfl⟩,
          ?_, ?_⟩
        · rw [stripped]
          rfl
        · rw [List.nil_append, stripped, List.nil_append]
  | bare isToken => exact solidPart (written_solid (.token isToken) _)
  | valued isToken _ _ _ =>
      refine solidPart ?_
      rw [List.append_assoc]
      exact written_solid (.token isToken) _
  | nameless _ _ _ =>
      refine solidPart fun c first => ?_
      cases first
      decide

theorem rawDirectives_complete {loose : Bool} {ds : List (Option Raw)} {i : Text}
    (listed : Listed loose ds i) (fuel : Nat) (enough : i.length ≤ fuel) :
    rawDirectives fuel (ows i) = (ds.map rawOf, []) := by
  induction listed generalizing fuel with
  | @one d part reads =>
      obtain ⟨rest', ends, same, stripped⟩ := ows_part reads (.inl rfl)
      obtain rfl : rest' = [] := by
        rcases ends with rfl | ⟨before, more, blank, rfl⟩
        · rfl
        · rw [ows_blank blank (semicolon_solid more)] at same
          cases same
      rw [List.append_nil] at stripped
      have taken := rawDirective_complete reads (.inl rfl)
      rw [List.append_nil] at taken
      cases fuel with
      | zero => rw [rawDirectives, stripped, taken]; rfl
      | succ fuel =>
          rw [rawDirectives, stripped, taken]
          rfl
  | @more d ds part before after rest reads blank blank' _ ih =>
      have ends : Ends (before ++ ';' :: (after ++ rest)) := .inr ⟨before, _, blank, rfl⟩
      obtain ⟨rest', ends', same, stripped⟩ := ows_part reads ends
      rw [ows_blank blank (semicolon_solid _)] at same
      have behind : ows (after ++ rest) = ows rest := by
        rw [ows, List.dropWhile_append_of_pos fun c member => by simpa using blank' c member]
        rfl
      cases fuel with
      | zero => simp at enough
      | succ fuel =>
          have shorter : rest.length ≤ fuel := by
            simp only [List.length_append, List.length_cons] at enough
            omega
          rw [rawDirectives, stripped, rawDirective_complete reads ends']
          simp only [same, behind, ih fuel shorter]
          rfl

/-- The parser's list is the loose reading of the value, which is the only one. -/
theorem rawDirectives_iff {value : Text} (trimmed : Trimmed value) {raws : List Raw} :
    (rawDirectives value.length value).1 = raws ∧ ows (rawDirectives value.length value).2 = [] ↔
      ∃ ds, Listed true ds value ∧ raws = ds.map rawOf := by
  have front : ows value = value := by
    have whole := ows_blank (s := []) (fun c none_ => absurd none_ List.not_mem_nil) trimmed.1
    exact whole
  constructor
  · rintro ⟨rfl, ended⟩
    obtain ⟨ds, read, split, listed, same⟩ := rawDirectives_sound value.length trimmed.1
    obtain ⟨lead, blanks, blank⟩ := ows_split (rawDirectives value.length value).2
    rw [ended, List.append_nil] at blanks
    -- what is left over are blanks, and the value does not end in one
    have nothing : lead = [] := by
      rcases List.eq_nil_or_concat lead with rfl | ⟨init, c, rfl⟩
      · rfl
      · rw [blanks] at split
        have last : value.getLast? = some c := by
          rw [split, List.concat_eq_append, ← List.append_assoc, List.getLast?_concat]
        exact absurd (blank c (by simp)) (trimmed.2 c last)
    rw [blanks, nothing, List.append_nil] at split
    exact ⟨ds, split ▸ listed, same⟩
  · rintro ⟨ds, listed, rfl⟩
    have whole := rawDirectives_complete listed value.length (Nat.le_refl _)
    rw [front] at whole
    rw [whole]
    exact ⟨rfl, rfl⟩

/-! ## What the directives say -/

theorem parseU64Saturating_eq (digits : Text) :
    parseU64Saturating digits = min (numeral digits) u64Max := by
  have fold : digits.foldl (fun acc c => acc * 10 + (c.toNat - '0'.toNat)) 0 = numeral digits := by
    unfold numeral
    induction digits using List.reverseRecOn with
    | nil => rfl
    | append_singleton s c ih =>
        rw [List.foldl_append, List.foldl_cons, List.foldl_nil, ih, List.reverse_append,
          List.reverse_singleton, List.singleton_append, List.map_cons, Nat.ofDigits_cons]
        have commuted : numeral s * 10 + (c.toNat - '0'.toNat) =
            (c.toNat - '0'.toNat) + 10 * numeral s := by omega
        exact commuted
  rw [parseU64Saturating, fold]

/-- A lifetime as `max-age` has to give it. -/
def Lifetime (raw : Raw) (n : Nat) : Prop :=
  ∃ digits, raw.value = some digits ∧ digits ≠ [] ∧ digits.all Text.isAsciiDigit = true ∧
    n = parseU64Saturating digits

/-- The lifetime the loop holds once it has seen these. -/
inductive Aged : Option Nat → List Raw → Option Nat → Prop
  | unseen (a : Option Nat) : Aged a [] a
  | seen {raw : Raw} {n : Nat} : Lifetime raw n → Aged none [raw] (some n)

/-- The flag the loop holds once it has seen these. -/
inductive Flagged : Option Bool → List Raw → Option Bool → Prop
  | unseen (f : Option Bool) : Flagged f [] f
  | seen {raw : Raw} : raw.value = none → Flagged none [raw] (some true)

theorem aged_cons {a r : Option Nat} {raw : Raw} {raws : List Raw} :
    Aged a (raw :: raws) r ↔ ∃ n, a = none ∧ Lifetime raw n ∧ Aged (some n) raws r := by
  constructor
  · intro aged
    cases aged with
    | seen lifetime => exact ⟨_, rfl, lifetime, .unseen _⟩
  · rintro ⟨n, rfl, lifetime, aged⟩
    cases aged
    exact .seen lifetime

theorem flagged_cons {f r : Option Bool} {raw : Raw} {raws : List Raw} :
    Flagged f (raw :: raws) r ↔ f = none ∧ raw.value = none ∧ Flagged (some true) raws r := by
  constructor
  · intro flagged
    cases flagged with
    | seen valueless => exact ⟨rfl, valueless, .unseen _⟩
  · rintro ⟨rfl, valueless, flagged⟩
    cases flagged
    exact .seen valueless

theorem not_both {raw : Raw} (age : isMaxAge raw = true) : isIncludeSubDomains raw = false := by
  unfold isMaxAge at age
  unfold isIncludeSubDomains
  rw [Text.eqIgnoreAsciiCase_iff] at age
  rw [← Bool.not_eq_true, Text.eqIgnoreAsciiCase_iff, age]
  decide

theorem judge_maxAge {found r : Option Nat × Option Bool} {raw : Raw} (age : isMaxAge raw = true) :
    judge found raw = some r ↔ ∃ n, found.1 = none ∧ Lifetime raw n ∧ r = (some n, found.2) := by
  have named : Text.eqIgnoreAsciiCase raw.name "max-age".toList = true := age
  unfold judge Lifetime
  rw [if_pos named]
  cases raw.value with
  | none => simp
  | some v =>
      dsimp only
      split_ifs with bad there
      · constructor
        · intro none_
          cases none_
        · rintro ⟨n, -, ⟨digits, same, some_, all, -⟩, -⟩
          cases same
          rcases bad with empty | other
          · exact absurd empty some_
          · exact absurd all other
      · constructor
        · intro none_
          cases none_
        · rintro ⟨n, absent, -⟩
          rw [absent] at there
          cases there
      · simp only [not_or, not_not] at bad
        have absent : found.1 = none := by simpa using there
        constructor
        · rintro ⟨⟩
          exact ⟨_, absent, ⟨v, rfl, bad.1, bad.2, rfl⟩, rfl⟩
        · rintro ⟨n, -, ⟨digits, same, -, -, rfl⟩, rfl⟩
          cases same
          rfl

theorem judge_includeSubDomains {found r : Option Nat × Option Bool} {raw : Raw}
    (age : isMaxAge raw = false) (subs : isIncludeSubDomains raw = true) :
    judge found raw = some r ↔
      found.2 = none ∧ raw.value = none ∧ r = (found.1, some true) := by
  have notAge : ¬ Text.eqIgnoreAsciiCase raw.name "max-age".toList = true := by
    rw [Bool.not_eq_true]
    exact age
  have named : Text.eqIgnoreAsciiCase raw.name "includesubdomains".toList = true := subs
  unfold judge
  rw [if_neg notAge, if_pos named]
  cases raw.value <;> cases found.2 <;> simp [eq_comm]

theorem judge_other {found : Option Nat × Option Bool} {raw : Raw} (age : isMaxAge raw = false)
    (subs : isIncludeSubDomains raw = false) : judge found raw = some found := by
  have notAge : ¬ Text.eqIgnoreAsciiCase raw.name "max-age".toList = true := by
    rw [Bool.not_eq_true]
    exact age
  have notSubs : ¬ Text.eqIgnoreAsciiCase raw.name "includesubdomains".toList = true := by
    rw [Bool.not_eq_true]
    exact subs
  unfold judge
  rw [if_neg notAge, if_neg notSubs]

/-- What the loop answers is what the two kinds of directives say, each by itself. -/
theorem judged_iff (raws : List Raw) (found r : Option Nat × Option Bool) :
    raws.foldlM judge found = some r ↔
      Aged found.1 (raws.filter isMaxAge) r.1 ∧
        Flagged found.2 (raws.filter isIncludeSubDomains) r.2 := by
  induction raws generalizing found with
  | nil =>
      constructor
      · rintro ⟨⟩
        exact ⟨.unseen _, .unseen _⟩
      · rintro ⟨aged, flagged⟩
        obtain ⟨a, f⟩ := found
        obtain ⟨a', f'⟩ := r
        cases aged
        cases flagged
        rfl
  | cons raw raws ih =>
      rw [List.foldlM_cons, Option.bind_eq_bind, Option.bind_eq_some_iff]
      cases age : isMaxAge raw with
      | true =>
          rw [List.filter_cons_of_pos age,
            List.filter_cons_of_neg (by rw [not_both age]; exact Bool.false_ne_true), aged_cons]
          constructor
          · rintro ⟨next, judged, later⟩
            obtain ⟨n, absent, lifetime, rfl⟩ := (judge_maxAge age).mp judged
            obtain ⟨aged, flagged⟩ := (ih _).mp later
            exact ⟨⟨n, absent, lifetime, aged⟩, flagged⟩
          · rintro ⟨⟨n, absent, lifetime, aged⟩, flagged⟩
            exact ⟨_, (judge_maxAge age).mpr ⟨n, absent, lifetime, rfl⟩,
              (ih _).mpr ⟨aged, flagged⟩⟩
      | false =>
          rw [List.filter_cons_of_neg (by rw [age]; exact Bool.false_ne_true)]
          cases subs : isIncludeSubDomains raw with
          | true =>
              rw [List.filter_cons_of_pos subs, flagged_cons]
              constructor
              · rintro ⟨next, judged, later⟩
                obtain ⟨absent, valueless, rfl⟩ := (judge_includeSubDomains age subs).mp judged
                obtain ⟨aged, flagged⟩ := (ih _).mp later
                exact ⟨aged, absent, valueless, flagged⟩
              · rintro ⟨aged, absent, valueless, flagged⟩
                exact ⟨_, (judge_includeSubDomains age subs).mpr ⟨absent, valueless, rfl⟩,
                  (ih _).mpr ⟨aged, flagged⟩⟩
          | false =>
              rw [List.filter_cons_of_neg (by rw [subs]; exact Bool.false_ne_true)]
              constructor
              · rintro ⟨next, judged, later⟩
                rw [judge_other age subs] at judged
                cases judged
                exact (ih _).mp later
              · exact fun said => ⟨found, judge_other age subs, (ih _).mpr said⟩

theorem means_iff {raws : List Raw} {d : Directives} : Means raws d ↔
    ∃ r, Aged none (raws.filter isMaxAge) (some d.maxAge) ∧
      Flagged none (raws.filter isIncludeSubDomains) r ∧ d.includeSubdomains = r.getD false := by
  constructor
  · rintro ⟨⟨raw, digits, only, valued, some_, all, lifetime⟩, flag⟩
    have aged : Aged none (raws.filter isMaxAge) (some d.maxAge) := by
      rw [only, lifetime, ← parseU64Saturating_eq]
      exact .seen ⟨digits, valued, some_, all, rfl⟩
    rcases flag with ⟨absent, off⟩ | ⟨sub, once, valueless, on⟩
    · refine ⟨none, aged, ?_, off⟩
      rw [absent]
      exact .unseen _
    · refine ⟨some true, aged, ?_, on⟩
      rw [once]
      exact .seen valueless
  · rintro ⟨r, aged, flagged, flag⟩
    constructor
    · generalize raws.filter isMaxAge = ages at aged
      cases aged with
      | seen lifetime =>
          obtain ⟨digits, valued, some_, all, same⟩ := lifetime
          exact ⟨_, digits, rfl, valued, some_, all, same.trans (parseU64Saturating_eq digits)⟩
    · generalize raws.filter isIncludeSubDomains = subs at flagged
      cases flagged with
      | unseen => exact .inl ⟨rfl, flag⟩
      | seen valueless => exact .inr ⟨_, rfl, valueless, flag⟩

/-- A part that is left out says nothing. -/
theorem filter_rawOf {p : Raw → Bool} (silent : p ⟨[], none⟩ = false) (ds : List (Option Raw)) :
    (ds.map rawOf).filter p = (ds.filterMap id).filter p := by
  induction ds with
  | nil => rfl
  | cons d ds ih =>
      cases d with
      | none =>
          rw [List.map_cons, List.filterMap_cons_none rfl, ← ih]
          exact List.filter_cons_of_neg (by rw [rawOf, Option.getD_none, silent]; decide)
      | some raw =>
          have front : (some raw :: ds).filterMap id = raw :: ds.filterMap id := rfl
          rw [front, List.map_cons, List.filter_cons, List.filter_cons, ih]
          rfl

theorem judged_means {ds : List (Option Raw)} {d : Directives} :
    (∃ r : Option Nat × Option Bool, (ds.map rawOf).foldlM judge (none, none) = some r ∧
      r.1 = some d.maxAge ∧ d.includeSubdomains = r.2.getD false) ↔
      Means (ds.filterMap id) d := by
  have noAge : isMaxAge ⟨[], none⟩ = false := by decide
  have noSubs : isIncludeSubDomains ⟨[], none⟩ = false := by decide
  rw [means_iff, ← filter_rawOf noAge, ← filter_rawOf noSubs]
  constructor
  · rintro ⟨⟨a, f⟩, judged, rfl, flag⟩
    obtain ⟨aged, flagged⟩ := (judged_iff _ _ _).mp judged
    exact ⟨f, aged, flagged, flag⟩
  · rintro ⟨f, aged, flagged, flag⟩
    exact ⟨(some d.maxAge, f), (judged_iff _ _ _).mpr ⟨aged, flagged⟩, rfl, flag⟩

/-- What the parser answers is what the loose reading of the value says. -/
theorem parse_eq_some {value : Text} (trimmed : Trimmed value) {d : Directives} :
    Directives.parse value = some d ↔
      ∃ ds, Listed true ds value ∧ Means (ds.filterMap id) d := by
  have unfolded : Directives.parse value = some d ↔
      ows (rawDirectives value.length value).2 = [] ∧
        ∃ r : Option Nat × Option Bool,
          (rawDirectives value.length value).1.foldlM judge (none, none) = some r ∧
            r.1 = some d.maxAge ∧ d.includeSubdomains = r.2.getD false := by
    unfold Directives.parse
    dsimp only
    split_ifs with left
    · simp [left]
    · rw [ne_eq, not_not] at left
      cases judged : (rawDirectives value.length value).1.foldlM judge (none, none) with
      | none => simp [left]
      | some r =>
          obtain ⟨a, f⟩ := r
          obtain ⟨n, flag⟩ := d
          cases a <;> simp [left, eq_comm]
  rw [unfolded]
  constructor
  · rintro ⟨ended, judged⟩
    obtain ⟨ds, listed, same⟩ := (rawDirectives_iff trimmed).mp ⟨rfl, ended⟩
    rw [same] at judged
    exact ⟨ds, listed, judged_means.mp judged⟩
  · rintro ⟨ds, listed, meant⟩
    obtain ⟨same, ended⟩ := (rawDirectives_iff trimmed).mpr ⟨ds, listed, rfl⟩
    refine ⟨ended, ?_⟩
    rw [same]
    exact judged_means.mpr meant

/-! ## Values without a name -/

theorem Part.named {raw : Raw} {part : Text} (reads : Part false (some raw) part) :
    raw.name ≠ [] := by
  cases reads with
  | bare isToken => exact isToken.1
  | valued isToken _ _ _ => exact isToken.1
  | nameless loose _ _ => cases loose

theorem Part.loosen {d : Option Raw} {part : Text} (reads : Part false d part) :
    Part true d part := by
  cases reads with
  | absent => exact .absent
  | bare isToken => exact .bare isToken
  | valued isToken before after wrote => exact .valued isToken before after wrote
  | nameless _ after wrote => exact .nameless rfl after wrote

theorem Part.tighten {d : Option Raw} {part : Text} (reads : Part true d part)
    (named : ∀ raw ∈ d, raw.name ≠ []) : Part false d part := by
  cases reads with
  | absent => exact .absent
  | bare isToken => exact .bare isToken
  | valued isToken before after wrote => exact .valued isToken before after wrote
  | nameless _ _ _ => exact absurd rfl (named _ rfl)

/-- The grammar's readings are the loose ones in which every directive has its name. -/
theorem listed_iff {ds : List (Option Raw)} {value : Text} :
    Listed false ds value ↔
      Listed true ds value ∧ ∀ raw, some raw ∈ ds → raw.name ≠ [] := by
  constructor
  · intro listed
    induction listed with
    | one reads =>
        refine ⟨.one reads.loosen, fun raw member => ?_⟩
        obtain rfl := List.mem_singleton.mp member
        exact reads.named
    | more reads before after _ ih =>
        refine ⟨.more reads.loosen before after ih.1, fun raw member => ?_⟩
        rcases List.mem_cons.mp member with rfl | later
        · exact reads.named
        · exact ih.2 raw later
  · rintro ⟨listed, named⟩
    induction listed with
    | one reads =>
        refine .one (reads.tighten fun raw there => named raw ?_)
        rw [Option.mem_def.mp there]
        exact List.mem_singleton_self _
    | more reads before after _ ih =>
        refine .more (reads.tighten fun raw there => named raw ?_) before after
          (ih fun raw member => named raw (List.mem_cons_of_mem _ member))
        rw [Option.mem_def.mp there]
        exact List.mem_cons_self

/-- A value without a name is still a value. -/
theorem Listed.valued {ds : List (Option Raw)} {value : Text} (listed : Listed true ds value)
    {raw : Raw} (member : some raw ∈ ds) (nameless : raw.name = []) : raw.value ≠ none := by
  have part_valued : ∀ {part : Text}, Part true (some raw) part → raw.value ≠ none := by
    intro part reads
    cases reads with
    | bare isToken => exact absurd nameless isToken.1
    | valued _ _ _ _ => exact Option.some_ne_none _
    | nameless _ _ _ => exact Option.some_ne_none _
  induction listed with
  | one reads =>
      obtain rfl := List.mem_singleton.mp member
      exact part_valued reads
  | more reads _ _ _ ih =>
      rcases List.mem_cons.mp member with rfl | later
      · exact part_valued reads
      · exact ih later

/-- The parser takes exactly the grammar's values, with what they say, unless the value is one
whose directives are in order but for a value that stands without a name. -/
theorem conforms_iff {value : Text} (trimmed : Trimmed value) :
    (∀ d, Directives.parse value = some d ↔ Conforms value d) ↔
      ¬ ∃ ds d, Listed true ds value ∧ Means (ds.filterMap id) d ∧
        ∃ raw, some raw ∈ ds ∧ raw.name = [] := by
  constructor
  · rintro agree ⟨ds, d, listed, meant, raw, member, nameless⟩
    obtain ⟨ds', strict, -⟩ := (agree d).mp ((parse_eq_some trimmed).mpr ⟨ds, listed, meant⟩)
    obtain ⟨loose, named⟩ := listed_iff.mp strict
    -- both readings are the parser's, so the value without a name is in the grammar's as well
    have first := (rawDirectives_iff trimmed).mpr ⟨ds, listed, rfl⟩
    have second := (rawDirectives_iff trimmed).mpr ⟨ds', loose, rfl⟩
    have same : raw ∈ ds'.map rawOf := by
      rw [← second.1, first.1]
      exact List.mem_map_of_mem (f := rawOf) member
    obtain ⟨d', member', read⟩ := List.mem_map.mp same
    cases d' with
    | none => exact listed.valued member nameless (read ▸ rfl)
    | some raw' => exact named raw' member' ((congrArg Raw.name read).trans nameless)
  · intro none_ d
    rw [parse_eq_some trimmed]
    constructor
    · rintro ⟨ds, listed, meant⟩
      refine ⟨ds, listed_iff.mpr ⟨listed, fun raw member nameless => ?_⟩, meant⟩
      exact none_ ⟨ds, d, listed, meant, raw, member, nameless⟩
    · rintro ⟨ds, strict, meant⟩
      exact ⟨ds, (listed_iff.mp strict).1, meant⟩

theorem conforms_iff_preload : Conforms "max-age=1; preload".toList ⟨1, false⟩ := by
  have trimmed : Trimmed "max-age=1; preload".toList := by
    constructor <;> rintro c ⟨⟩ <;> decide
  have parsed : Directives.parse "max-age=1; preload".toList = some ⟨1, false⟩ := by decide
  refine ((conforms_iff trimmed).mpr ?_ _).mp parsed
  rintro ⟨ds, d, listed, -, raw, member, nameless⟩
  have read := ((rawDirectives_iff trimmed).mpr ⟨ds, listed, rfl⟩).1
  have there : raw ∈ (rawDirectives 18 "max-age=1; preload".toList).1 := by
    have mapped := List.mem_map_of_mem (f := rawOf) member
    rw [← read] at mapped
    exact mapped
  have names : ∀ raw ∈ (rawDirectives 18 "max-age=1; preload".toList).1, raw.name ≠ [] := by
    decide
  exact names raw there nameless

/-- `=x` is taken for a directive to ignore. -/
theorem nameless_value_is_taken :
    ¬ ∀ value, Trimmed value →
      ∀ d, Directives.parse value = some d ↔ Conforms value d := by
  intro agree
  have trimmed : Trimmed "max-age=1; =x".toList := by
    constructor <;> rintro c ⟨⟩ <;> decide
  have parsed : Directives.parse "max-age=1; =x".toList = some ⟨1, false⟩ := by decide
  obtain ⟨ds, strict, -⟩ := (agree _ trimmed _).mp parsed
  obtain ⟨loose, named⟩ := listed_iff.mp strict
  have read := ((rawDirectives_iff trimmed).mpr ⟨ds, loose, rfl⟩).1
  have there : (⟨[], some ['x']⟩ : Raw) ∈ ds.map rawOf := by
    rw [← read]
    exact List.mem_of_getElem? (i := 1) rfl
  obtain ⟨d, member, same⟩ := List.mem_map.mp there
  cases d with
  | none => exact absurd (congrArg Raw.value same) (by decide)
  | some raw => exact named raw member (congrArg Raw.name same)

end HClient.Hsts
