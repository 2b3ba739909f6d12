import HClient.Dns.Names

/-!
# Record data on its own

What stands in a record's data, in the terms of the message it came in, against what the resolver
hands over: data that means the same where the message is gone.
-/
namespace HClient.Dns

open Walk

/-! ## The data in the message -/

/-- The octets from an offset on begin with these. -/
def Holds (msg : List UInt8) (start : Nat) (octets : List UInt8) : Prop := octets <+: msg.drop start

/-- Names one after the other, through how many pointers altogether, and where they end. -/
inductive NamesAt (msg : List UInt8) : Nat → List (List (List UInt8)) → Nat → Nat → Prop
  | nil {start : Nat} : NamesAt msg start [] 0 start
  | cons {start next stop jumps jumps' : Nat} {labels : List (List UInt8)}
      {names : List (List (List UInt8))} (expands : Expands msg start labels jumps)
      (past : Past msg start next) (rest : NamesAt msg next names jumps' stop) :
      NamesAt msg start (labels :: names) (jumps + jumps') stop

/-- How many names there are, and how many octets behind them. -/
def NameLayout.names : NameLayout → Nat
  | .two => 2
  | .soa => 2
  | _ => 1

def NameLayout.counters : NameLayout → Nat
  | .soa => 20
  | _ => 0

/-- The fields of the data: the octets in front of the names, the names, the octets behind them,
and where they end. -/
structure Fields where
  front : List UInt8
  names : List (List (List UInt8))
  back : List UInt8
  jumps : Nat
  last : Nat

/-- The data at an offset has these fields. -/
structure Laid (msg : List UInt8) (layout : NameLayout) (start : Nat) (f : Fields) : Prop where
  front : Holds msg start f.front
  frontLength : f.front.length = 2 * layout.numbers
  count : f.names.length = layout.names
  names : ∃ stop, NamesAt msg (start + f.front.length) f.names f.jumps stop ∧
    Holds msg stop f.back ∧ f.last = stop + f.back.length
  backLength : f.back.length = layout.counters

/-- The fields with every name in its uncompressed form. -/
def Fields.plain (f : Fields) : List UInt8 := f.front ++ (f.names.flatMap wire ++ f.back)

/-- The data that is handed over does not depend on the message. -/
structure Independent (msg : List UInt8) (start stop : Nat) (layout : NameLayout)
    (out : List UInt8) (f : Fields) : Prop where
  laid : Laid msg layout start f
  written : out = f.plain
  readAgain : Laid out layout 0 { f with jumps := 0, last := out.length }
  same : f.jumps = 0 → slice msg start stop = some out
  within : f.last ≤ stop

/-- The text of the name has no wire form. -/
def Refused (labels : List (List UInt8)) : Prop :=
  ∃ texts : List Text, labels = texts.map Bytes.utf8 ∧ wireName (['.'].intercalate texts) = none

/-- A name whose text is written as the name is. -/
def Plain (labels : List (List UInt8)) : Prop :=
  (∀ l ∈ labels, 0x2E ∉ l) ∧ (wire labels).length ≤ maxWireNameLen

/-- The fields end within the record, and at its end where there is no pointer; and the names are
written as they are, or one of them is not written and there is no pointer. -/
structure Fits (msg : List UInt8) (start stop : Nat) (layout : NameLayout) (f : Fields) : Prop where
  laid : Laid msg layout start f
  within : f.last ≤ stop
  whole : f.jumps = 0 → f.last = stop
  names : (∀ labels ∈ f.names, Plain labels) ∨ f.jumps = 0 ∧ ∃ labels ∈ f.names, Refused labels

/-! ## Octets -/

section
variable {msg : List UInt8} {start stop : Nat} {x y : List UInt8}

theorem holds_nil (msg : List UInt8) (start : Nat) : Holds msg start [] := List.nil_prefix

theorem holds_append :
    Holds msg start (x ++ y) ↔ Holds msg start x ∧ Holds msg (start + x.length) y := by
  unfold Holds
  rw [← List.drop_drop]
  constructor
  · rintro ⟨rest, same⟩
    rw [List.append_assoc] at same
    refine ⟨⟨_, same⟩, ?_⟩
    rw [← same, List.drop_left]
    exact List.prefix_append _ _
  · rintro ⟨⟨rest, same⟩, second⟩
    rw [← same, List.drop_left] at second
    rw [← same]
    exact List.prefix_append_right_inj x |>.mpr second

theorem holds_cons {b : UInt8} : Holds msg start (b :: x) ↔
    msg[start]? = some b ∧ Holds msg (start + 1) x := by
  rw [← List.singleton_append, holds_append]
  refine and_congr_left fun _ => ?_
  unfold Holds
  rw [← List.head?_drop]
  cases msg.drop start with
  | nil => simp
  | cons c rest => simp [eq_comm]

theorem slice_holds (said : slice msg start stop = some x) :
    Holds msg start x ∧ start + x.length = stop := by
  have length := length_slice said
  unfold slice at said
  split at said
  next range =>
    cases said
    exact ⟨List.take_prefix _ _, by omega⟩
  · cases said

theorem holds_slice (holds : Holds msg start x) (some_ : x ≠ []) :
    slice msg start (start + x.length) = some x := by
  have size := holds.length_le
  have count := List.length_pos_of_ne_nil some_
  rw [List.length_drop] at size
  have range : start ≤ start + x.length ∧ start + x.length ≤ msg.length := by omega
  obtain ⟨rest, same⟩ := holds
  rw [slice, if_pos range, Nat.add_sub_cancel_left, ← same, List.take_left]

theorem Holds.unique (first : Holds msg start x) (second : Holds msg start y)
    (length : x.length = y.length) : x = y :=
  (List.prefix_of_prefix_length_le first second length.le).eq_of_length length

end

/-! ## Names -/

section
variable {msg : List UInt8} {start stop jumps : Nat} {labels : List (List UInt8)}

/-- Labels that a length octet can announce. -/
def Sized (labels : List (List UInt8)) : Prop := ∀ l ∈ labels, 0 < l.length ∧ l.length < 64

theorem lt_of_label {len : UInt8} (form : len &&& labelMask = 0) : len.toNat < 64 := by
  have all : ∀ n < 256, UInt8.ofNat n &&& labelMask = 0 → n < 64 := by decide +kernel
  have here := all len.toNat len.toNat_lt
  rw [UInt8.ofNat_toNat] at here
  exact here form

theorem label_of_lt {n : Nat} (small : n < 64) : UInt8.ofNat n &&& labelMask = 0 := by
  have all : ∀ n < 64, UInt8.ofNat n &&& labelMask = 0 := by decide +kernel
  exact all n small

theorem Expands.sized (expands : Expands msg start labels jumps) : Sized labels := by
  induction expands with
  | root => exact fun l member => absurd member List.not_mem_nil
  | @label _ _ len _ _ here form some_ octets rest ih =>
      have length := length_slice octets
      have small := lt_of_label form
      have positive : len.toNat ≠ 0 := fun zero => some_ (UInt8.toNat_inj.mp zero)
      refine List.forall_mem_cons.mpr ⟨?_, ih⟩
      omega
  | pointer _ _ _ _ ih => exact ih

/-- A name without a pointer stands there in its uncompressed form. -/
theorem Expands.holds (expands : Expands msg start labels jumps) (plain : jumps = 0) :
    Holds msg start (wire labels) := by
  induction expands with
  | root len => exact holds_cons.mpr ⟨len, holds_nil _ _⟩
  | @label start _ len label _ here form some_ octets rest ih =>
      obtain ⟨holds, stop⟩ := slice_holds octets
      have length : label.length = len.toNat := by omega
      rw [wire_cons, List.cons_append, holds_cons, holds_append, length, UInt8.ofNat_toNat]
      exact ⟨here, holds, ih plain⟩
  | pointer => cases plain

/-- The uncompressed form is the name it is written from, and no pointer. -/
theorem expands_of_holds (sized : Sized labels) (holds : Holds msg start (wire labels)) :
    Expands msg start labels 0 ∧ Past msg start (start + (wire labels).length) := by
  induction labels generalizing start with
  | nil =>
      have root := (holds_cons.mp holds).1
      exact ⟨.root root, .root root⟩
  | cons label labels ih =>
      obtain ⟨size, sized⟩ := List.forall_mem_cons.mp sized
      have number : (UInt8.ofNat label.length).toNat = label.length := by
        rw [UInt8.toNat_ofNat', Nat.mod_eq_of_lt (by omega)]
      have some_ : UInt8.ofNat label.length ≠ 0 := by
        intro zero
        rw [zero] at number
        exact absurd number.symm (Nat.ne_of_gt size.1)
      rw [wire_cons, List.cons_append, holds_cons, holds_append] at holds
      obtain ⟨here, octets, rest⟩ := holds
      obtain ⟨expands, past⟩ := ih sized rest
      have octets := holds_slice octets (List.ne_nil_of_length_pos size.1)
      have form := label_of_lt size.2
      refine ⟨.label here form some_ (by rw [number]; exact octets)
        (by rw [number]; exact expands), ?_⟩
      have stop : start + (wire (label :: labels)).length =
          start + 1 + (UInt8.ofNat label.length).toNat + (wire labels).length := by
        rw [wire_cons, List.length_append, List.length_cons, number]
        omega
      rw [stop]
      exact .label here form some_ (by rw [number]; exact past)

theorem Past.unique {stop' : Nat} (first : Past msg start stop) (second : Past msg start stop') :
    stop = stop' := by
  induction first with
  | root len =>
      cases second with
      | root => rfl
      | label here form some_ _ =>
          cases len.symm.trans here
          exact absurd rfl some_
      | pointer here form =>
          cases len.symm.trans here
          cases form
  | label here form some_ rest ih =>
      cases second with
      | root len =>
          cases here.symm.trans len
          exact absurd rfl some_
      | label here' _ _ rest' =>
          cases here.symm.trans here'
          exact ih rest'
      | pointer here' form' =>
          cases here.symm.trans here'
          exact absurd form' (label_ne_pointer form)
  | pointer here form =>
      cases second with
      | root len =>
          cases here.symm.trans len
          cases form
      | label here' form' _ _ =>
          cases here.symm.trans here'
          exact absurd form (label_ne_pointer form')
      | pointer => rfl

end

/-! ## Names in a row -/

section
variable {msg : List UInt8} {start stop jumps : Nat} {names : List (List (List UInt8))}

theorem NamesAt.sized (there : NamesAt msg start names jumps stop) :
    ∀ labels ∈ names, Sized labels := by
  induction there with
  | nil => exact fun labels member => absurd member List.not_mem_nil
  | cons expands _ _ ih => exact List.forall_mem_cons.mpr ⟨expands.sized, ih⟩

theorem NamesAt.unique {names' : List (List (List UInt8))} {jumps' stop' : Nat}
    (first : NamesAt msg start names jumps stop) (second : NamesAt msg start names' jumps' stop')
    (count : names.length = names'.length) : names = names' ∧ jumps = jumps' ∧ stop = stop' := by
  induction first generalizing names' jumps' with
  | nil =>
      cases second with
      | nil => exact ⟨rfl, rfl, rfl⟩
      | cons => cases count
  | cons expands past rest ih =>
      cases second with
      | nil => cases count
      | cons expands' past' rest' =>
          obtain rfl := past.unique past'
          obtain ⟨rfl, rfl, rfl⟩ := ih rest' (Nat.succ.inj count)
          obtain ⟨rfl, rfl⟩ := expands.unique expands'
          exact ⟨rfl, rfl, rfl⟩

/-- Names without a pointer stand there in their uncompressed form. -/
theorem NamesAt.holds (there : NamesAt msg start names jumps stop) (plain : jumps = 0) :
    Holds msg start (names.flatMap wire) ∧ stop = start + (names.flatMap wire).length := by
  induction there with
  | nil => exact ⟨holds_nil _ _, rfl⟩
  | @cons start next stop jumps jumps' labels names expands past rest ih =>
      obtain ⟨none_, none_'⟩ := Nat.add_eq_zero_iff.mp plain
      have here := expands.holds none_
      obtain ⟨-, past'⟩ := expands_of_holds expands.sized here
      obtain rfl := past.unique past'
      obtain ⟨later, stops⟩ := ih none_'
      rw [List.flatMap_cons, holds_append, List.length_append, ← Nat.add_assoc]
      exact ⟨⟨here, later⟩, stops⟩

theorem namesAt_of_holds (sized : ∀ labels ∈ names, Sized labels)
    (holds : Holds msg start (names.flatMap wire)) :
    NamesAt msg start names 0 (start + (names.flatMap wire).length) := by
  induction names generalizing start with
  | nil => exact .nil
  | cons labels names ih =>
      obtain ⟨sized, more⟩ := List.forall_mem_cons.mp sized
      rw [List.flatMap_cons, holds_append] at holds
      obtain ⟨expands, past⟩ := expands_of_holds sized holds.1
      rw [List.flatMap_cons, List.length_append, ← Nat.add_assoc]
      exact .cons expands past (ih more holds.2)

/-- Names that stand there in their uncompressed form have no pointer. -/
theorem NamesAt.no_pointer (there : NamesAt msg start names jumps stop)
    (holds : Holds msg start (names.flatMap wire)) : jumps = 0 :=
  (there.unique (namesAt_of_holds there.sized holds) rfl).2.1

theorem flatMap_wire_inj {names' : List (List (List UInt8))} {s s' : List UInt8}
    (sized : ∀ labels ∈ names, ∀ l ∈ labels, 0 < l.length ∧ l.length < 256)
    (sized' : ∀ labels ∈ names', ∀ l ∈ labels, 0 < l.length ∧ l.length < 256)
    (count : names.length = names'.length)
    (same : names.flatMap wire ++ s = names'.flatMap wire ++ s') : names = names' := by
  induction names generalizing names' with
  | nil => exact (List.length_eq_zero_iff.mp count.symm).symm
  | cons labels names ih =>
      cases names' with
      | nil => cases count
      | cons labels' names' =>
          obtain ⟨size, tail⟩ := List.forall_mem_cons.mp sized
          obtain ⟨size', tail'⟩ := List.forall_mem_cons.mp sized'
          have more : names.length = names'.length := Nat.succ.inj count
          rw [List.flatMap_cons, List.flatMap_cons, List.append_assoc, List.append_assoc] at same
          obtain ⟨rfl, rest⟩ := wire_append_inj size size' same
          rw [ih tail tail' more rest]

end

/-! ## The fields -/

section
variable {msg : List UInt8} {start stop : Nat} {layout : NameLayout} {f f' : Fields}

theorem Laid.unique (first : Laid msg layout start f) (second : Laid msg layout start f') :
    f = f' := by
  obtain ⟨front, names, back, jumps, last⟩ := f
  obtain ⟨front', names', back', jumps', last'⟩ := f'
  obtain ⟨holds, length, count, ⟨stop, there, holdsBack, ends⟩, lengthBack⟩ := first
  obtain ⟨holds', length', count', ⟨stop', there', holdsBack', ends'⟩, lengthBack'⟩ := second
  dsimp only at *
  obtain rfl := holds.unique holds' (length.trans length'.symm)
  obtain ⟨rfl, rfl, rfl⟩ := there.unique there' (count.trans count'.symm)
  obtain rfl := holdsBack.unique holdsBack' (lengthBack.trans lengthBack'.symm)
  rw [ends, ends']

/-- Fields without a pointer stand there as they are written on their own. -/
theorem Laid.holds (laid : Laid msg layout start f) (plain : f.jumps = 0) :
    Holds msg start f.plain ∧ f.last = start + f.plain.length := by
  obtain ⟨stop, there, back, ends⟩ := laid.names
  obtain ⟨names, stops⟩ := there.holds plain
  rw [stops] at back
  refine ⟨?_, ?_⟩
  · rw [Fields.plain, holds_append, holds_append]
    exact ⟨laid.front, names, back⟩
  · rw [ends, stops, Fields.plain, List.length_append, List.length_append]
    omega

/-- Fields that stand there as they are written on their own have no pointer. -/
theorem Laid.no_pointer (laid : Laid msg layout start f) (holds : Holds msg start f.plain) :
    f.jumps = 0 := by
  obtain ⟨stop, there, -, -⟩ := laid.names
  rw [Fields.plain, holds_append, holds_append] at holds
  exact there.no_pointer holds.2.1

/-- What is written on its own reads as the same fields. -/
theorem Laid.readAgain (laid : Laid msg layout start f) :
    Laid f.plain layout 0 { f with jumps := 0, last := f.plain.length } := by
  obtain ⟨stop, there, -, -⟩ := laid.names
  have whole : Holds f.plain 0 f.plain := List.prefix_rfl
  have parts := whole
  rw [Fields.plain, holds_append, holds_append, ← Fields.plain, Nat.zero_add] at parts
  obtain ⟨front, names, back⟩ := parts
  refine ⟨front, laid.frontLength, laid.count, ⟨_, ?_, back, ?_⟩, laid.backLength⟩
  · have again := namesAt_of_holds there.sized names
    rw [Nat.zero_add]
    exact again
  · dsimp only
    rw [Fields.plain, List.length_append, List.length_append, Nat.add_assoc]

theorem plain_ne_nil (laid : Laid msg layout start f) : f.plain ≠ [] := by
  have some_ : f.names.flatMap wire ≠ [] := by
    have count := laid.count
    cases names : f.names with
    | nil =>
        rw [names] at count
        cases layout <;> cases count
    | cons labels rest => simp [wire]
  simp [Fields.plain, some_]

end

/-! ## What is read of it -/

section
variable {msg : List UInt8} {start stop : Nat}

theorem mapM_index {bytes : List UInt8} {ks : List Nat} {octets : List UInt8}
    (said : (ks.mapM fun k => Walk.index bytes k).run = some (.ok octets)) :
    ks.map (bytes[·]?) = octets.map some := by
  induction ks generalizing octets with
  | nil =>
      cases said
      rfl
  | cons k ks ih =>
      rw [List.mapM_cons] at said
      obtain ⟨b, here, said⟩ := bind_eq_ok said
      obtain ⟨rest, later, said⟩ := bind_eq_ok said
      cases said
      have there : bytes[k]? = some b := by
        change Option.map Except.ok bytes[k]? = some (.ok b) at here
        obtain ⟨c, there, same⟩ := Option.map_eq_some_iff.mp here
        cases same
        exact there
      rw [List.map_cons, List.map_cons, there, ih later]

/-- A number is written as the octets it was read from. -/
theorem number_read {bytes : List UInt8} {width i v : Nat}
    (said : (number bytes width i).run = some (.ok v)) :
    toBe width v = (bytes.drop i).take width := by
  unfold number at said
  obtain ⟨octets, read, said⟩ := bind_eq_ok said
  cases said
  have read : ((List.range width).map (i + ·)).map (bytes[·]?) = octets.map some := by
    refine mapM_index ?_
    rw [List.mapM_map]
    exact read
  have length : octets.length = width := by
    have := congrArg List.length read
    simpa using this.symm
  have same : octets = (bytes.drop i).take width := by
    refine List.ext_getElem? fun k => ?_
    by_cases inside : k < width
    · have here := congrArg (·[k]?) read
      simp only [List.map_map, List.getElem?_map, List.getElem?_range inside, Option.map_some,
        Function.comp_apply] at here
      rw [List.getElem?_take_of_lt inside, List.getElem?_drop]
      obtain ⟨o, there⟩ : ∃ o, octets[k]? = some o :=
        ⟨_, List.getElem?_eq_getElem (by omega)⟩
      rw [there] at here ⊢
      exact (Option.some.inj here).symm
    · rw [List.getElem?_eq_none (by omega), List.getElem?_take_eq_none (by omega)]
  rw [← same]
  conv_lhs => rw [← length]
  exact toBe_fromBe 0 octets

theorem readPrefix_read {n cursor : Nat} {bytes : List UInt8}
    (said : (readPrefix msg n cursor).run = some (.ok (bytes, stop))) :
    Holds msg cursor bytes ∧ bytes.length = 2 * n ∧ stop = cursor + bytes.length := by
  induction n generalizing cursor bytes with
  | zero =>
      cases said
      exact ⟨holds_nil _ _, rfl, rfl⟩
  | succ n ih =>
      unfold readPrefix at said
      obtain ⟨pair, here, said⟩ := bind_eq_ok said
      obtain ⟨⟨pairs, cursor'⟩, later, said⟩ := bind_eq_ok said
      cases said
      obtain ⟨holds, ends⟩ := slice_holds (okOr_eq_ok here)
      obtain ⟨holds', length, rfl⟩ := ih later
      have two : pair.length = 2 := by omega
      refine ⟨holds_append.mpr ⟨holds, by rw [two]; exact holds'⟩, ?_, ?_⟩
      · rw [List.length_append]
        omega
      · rw [List.length_append]
        omega

/-- Names that are read one after the other. -/
inductive NamesRead (msg : List UInt8) : Nat → List Text → Nat → Prop
  | nil {start : Nat} : NamesRead msg start [] start
  | cons {start next stop : Nat} {name : Text} {names : List Text}
      (read : (readName msg start).run = some (.ok (name, next)))
      (rest : NamesRead msg next names stop) : NamesRead msg start (name :: names) stop

/-- What is read where the data of a layout is read, and how that is written. -/
structure DataRead (msg : List UInt8) (layout : NameLayout) (start : Nat) (parsed : Parsed)
    (front : List UInt8) (texts : List Text) (back : List UInt8) (stop : Nat) : Prop where
  frontHolds : Holds msg start front
  frontLength : front.length = 2 * layout.numbers
  count : texts.length = layout.names
  names : NamesRead msg (start + front.length) texts stop
  backHolds : Holds msg stop back
  backLength : back.length = layout.counters
  written : parsed.toVec = (texts.mapM wireName).map fun ws => front ++ (ws.flatten ++ back)

theorem take_pairs {bytes : List UInt8} (length : bytes.length = 6) :
    bytes.take 2 ++ ((bytes.drop 2).take 2 ++ (bytes.drop 4).take 2) = bytes := by
  have last : (bytes.drop 4).take 2 = bytes.drop 4 := List.take_of_length_le (by simp [length])
  have middle : (bytes.drop 2).take 2 ++ bytes.drop 4 = bytes.drop 2 := by
    have split := List.take_append_drop 2 (bytes.drop 2)
    rwa [List.drop_drop] at split
  rw [last, middle, List.take_append_drop]

theorem take_quads {bytes : List UInt8} (length : bytes.length = 20) :
    bytes.take 4 ++ ((bytes.drop 4).take 4 ++ ((bytes.drop 8).take 4 ++
      ((bytes.drop 12).take 4 ++ (bytes.drop 16).take 4))) = bytes := by
  have step : ∀ n, (bytes.drop n).take 4 ++ bytes.drop (n + 4) = bytes.drop n := by
    intro n
    have split := List.take_append_drop 4 (bytes.drop n)
    rwa [List.drop_drop] at split
  have last : (bytes.drop 16).take 4 = bytes.drop 16 := List.take_of_length_le (by simp [length])
  rw [last, step 12, step 8, step 4]
  exact List.take_append_drop 4 bytes

theorem parseNames_read {layout : NameLayout} {parsed : Parsed}
    (said : (parseNames msg layout start).run = some (.ok parsed)) :
    ∃ front texts back stop, DataRead msg layout start parsed front texts back stop := by
  unfold parseNames at said
  obtain ⟨⟨numbers, cursor⟩, prefixed, names⟩ := bind_eq_ok said
  obtain ⟨holds, length, rfl⟩ := readPrefix_read prefixed
  obtain ⟨⟨first, cursor'⟩, read, said⟩ := bind_eq_ok names
  cases layout with
  | one =>
      cases said
      refine ⟨numbers, [first], [], cursor', holds, length, rfl, .cons read .nil, holds_nil _ _,
        rfl, ?_⟩
      obtain rfl := List.length_eq_zero_iff.mp length
      simp only [Parsed.toVec, List.mapM_cons, List.mapM_nil]
      cases wireName first <;> simp
  | two =>
      obtain ⟨⟨second, cursor''⟩, read', said⟩ := bind_eq_ok said
      cases said
      refine ⟨numbers, [first, second], [], cursor'', holds, length, rfl,
        .cons read (.cons read' .nil), holds_nil _ _, rfl, ?_⟩
      obtain rfl := List.length_eq_zero_iff.mp length
      simp only [Parsed.toVec, List.mapM_cons, List.mapM_nil]
      cases wireName first <;> cases wireName second <;> simp
  | u16ThenOne =>
      obtain ⟨value, read', said⟩ := bind_eq_ok said
      cases said
      refine ⟨numbers, [first], [], cursor', holds, length, rfl, .cons read .nil, holds_nil _ _,
        rfl, ?_⟩
      have value_ := number_read read'
      have two : numbers.length ≤ 2 := Nat.le_of_eq length
      rw [List.drop_zero, List.take_of_length_le two] at value_
      simp only [Parsed.toVec, List.mapM_cons, List.mapM_nil, value_]
      cases wireName first <;> simp
  | srv =>
      obtain ⟨priority, read₁, said⟩ := bind_eq_ok said
      obtain ⟨weight, read₂, said⟩ := bind_eq_ok said
      obtain ⟨port, read₃, said⟩ := bind_eq_ok said
      cases said
      refine ⟨numbers, [first], [], cursor', holds, length, rfl, .cons read .nil, holds_nil _ _,
        rfl, ?_⟩
      have pairs := take_pairs length
      have first_ := number_read read₁
      rw [List.drop_zero] at first_
      rw [← first_, ← number_read read₂, ← number_read read₃] at pairs
      simp only [Parsed.toVec, List.mapM_cons, List.mapM_nil]
      cases wireName first with
      | none => rfl
      | some w => simp [← pairs]
  | soa =>
      obtain ⟨⟨rname, after⟩, read', said⟩ := bind_eq_ok said
      obtain ⟨counters, sliced, said⟩ := bind_eq_ok said
      obtain ⟨serial, read₁, said⟩ := bind_eq_ok said
      obtain ⟨refresh, read₂, said⟩ := bind_eq_ok said
      obtain ⟨retry, read₃, said⟩ := bind_eq_ok said
      obtain ⟨expire, read₄, said⟩ := bind_eq_ok said
      obtain ⟨minimum, read₅, said⟩ := bind_eq_ok said
      cases said
      obtain ⟨holds', ends⟩ := slice_holds (okOr_eq_ok sliced)
      have twenty : counters.length = 20 := by omega
      refine ⟨numbers, [first, rname], counters, after, holds, length, rfl,
        .cons read (.cons read' .nil), holds', twenty, ?_⟩
      obtain rfl := List.length_eq_zero_iff.mp length
      have quads := take_quads twenty
      have first_ := number_read read₁
      rw [List.drop_zero] at first_
      rw [← first_, ← number_read read₂, ← number_read read₃, ← number_read read₄,
        ← number_read read₅] at quads
      simp only [Parsed.toVec, List.mapM_cons, List.mapM_nil]
      cases wireName first with
      | none => rfl
      | some w =>
          cases wireName rname with
          | none => rfl
          | some w' => simp [← quads]

end

/-! ## What is handed over -/

section
variable {msg : List UInt8} {start stop : Nat}

/-- The labels of each name, as the message has them. -/
def octetsOf (names : List (List Text)) : List (List (List UInt8)) :=
  names.map fun labels => labels.map Bytes.utf8

/-- The text of a name. -/
def dotted (labels : List Text) : Text := ['.'].intercalate labels

/-- The names that were read, by their labels. -/
theorem NamesRead.namesAt {texts : List Text} (read : NamesRead msg start texts stop) :
    ∃ names jumps, texts = names.map dotted ∧ NamesAt msg start (octetsOf names) jumps stop ∧
      ∀ labels ∈ names, Writable labels := by
  induction read with
  | nil => exact ⟨[], 0, rfl, .nil, fun _ member => absurd member List.not_mem_nil⟩
  | cons read _ ih =>
      obtain ⟨labels, jumps, name⟩ := readNameIn_read read
      obtain ⟨names, jumps', rfl, there, writable⟩ := ih
      have nonempty : ∀ l ∈ labels, l ≠ [] := fun l member => (name.sizes l member).1
      have text := name.text.trans (extended_eq_intercalate nonempty)
      refine ⟨labels :: names, jumps + jumps', ?_, .cons name.expands (name.past rfl) there,
        List.forall_mem_cons.mpr ⟨name.sizes, writable⟩⟩
      rw [text]
      rfl

theorem mapM_wireName {texts : List Text} {ws : List (List UInt8)}
    (written : texts.mapM wireName = some ws) :
    (∀ s ∈ texts, ∃ w, wireName s = some w) ∧
      ws.flatten = (octetsOf (texts.map labelsOf)).flatMap wire := by
  induction texts generalizing ws with
  | nil =>
      cases written
      exact ⟨fun _ member => absurd member List.not_mem_nil, rfl⟩
  | cons s texts ih =>
      rw [List.mapM_cons] at written
      simp only [Option.bind_eq_bind, Option.bind_eq_some_iff, Option.pure_def,
        Option.some.injEq] at written
      obtain ⟨w, first, ws, rest, rfl⟩ := written
      obtain ⟨all, same⟩ := ih rest
      refine ⟨List.forall_mem_cons.mpr ⟨⟨w, first⟩, all⟩, ?_⟩
      rw [List.flatten_cons, same, (wireName_eq_some_iff.mp first).2.2]
      rfl

theorem mapM_wireName_none {texts : List Text} (refused : texts.mapM wireName = none) :
    ∃ s ∈ texts, wireName s = none := by
  by_contra all
  push Not at all
  have written : ∃ ws, texts.mapM wireName = some ws := by
    clear refused
    induction texts with
    | nil => exact ⟨[], rfl⟩
    | cons s texts ih =>
        obtain ⟨here, later⟩ := List.forall_mem_cons.mp all
        obtain ⟨ws, rest⟩ := ih later
        obtain ⟨w, first⟩ := Option.ne_none_iff_exists'.mp here
        exact ⟨w :: ws, by rw [List.mapM_cons, first, rest]; rfl⟩
  obtain ⟨ws, same⟩ := written
  rw [same] at refused
  cases refused

theorem utf8_injective : Function.Injective Bytes.utf8 := by
  intro s t same
  have read := congrArg Bytes.fromUtf8 same
  rw [Bytes.fromUtf8_utf8, Bytes.fromUtf8_utf8] at read
  exact Option.some.inj read

theorem refused_iff (labels : List Text) :
    Refused (labels.map Bytes.utf8) ↔ wireName (dotted labels) = none := by
  constructor
  · rintro ⟨texts, same, refused⟩
    rw [← List.map_injective_iff.mpr utf8_injective same] at refused
    exact refused
  · exact fun refused => ⟨labels, rfl, refused⟩

/-- A name is written as it is where the labels of its text are its own. -/
theorem plain_iff {labels : List Text} (writable : Writable labels) :
    Plain (labels.map Bytes.utf8) ↔
      labelsOf (dotted labels) = labels ∧ ∃ w, wireName (dotted labels) = some w := by
  have nonempty : ∀ l ∈ labels, l ≠ [] := fun l member => (writable l member).1
  have dots : (∀ l ∈ labels.map Bytes.utf8, 0x2E ∉ l) ↔ ∀ l ∈ labels, '.' ∉ l := by
    rw [List.forall_mem_map]
    simp only [dot_mem_utf8]
  unfold Plain
  rw [dots]
  constructor
  · rintro ⟨plain, short⟩
    have same : labelsOf (dotted labels) = labels := labelsOf_intercalate nonempty plain
    refine ⟨same, wire (labels.map Bytes.utf8), wireName_eq_some_iff.mpr ?_⟩
    rw [same]
    exact ⟨writable, short, rfl⟩
  · rintro ⟨same, w, written⟩
    obtain ⟨-, short, rfl⟩ := wireName_eq_some_iff.mp written
    rw [same] at short
    refine ⟨fun l member => ?_, short⟩
    rw [← same] at member
    exact not_mem_labelsOf member

theorem fields_exist {layout : NameLayout} {parsed : Parsed} {front back : List UInt8}
    {texts : List Text} (read : DataRead msg layout start parsed front texts back stop) :
    ∃ names f, texts = names.map dotted ∧ (∀ labels ∈ names, Writable labels) ∧
      Laid msg layout start f ∧ f.front = front ∧ f.names = octetsOf names ∧ f.back = back := by
  obtain ⟨names, jumps, rfl, there, writable⟩ := read.names.namesAt
  have count : (octetsOf names).length = layout.names := by
    rw [octetsOf, List.length_map, ← read.count, List.length_map]
  exact ⟨names, ⟨front, octetsOf names, back, jumps, stop + back.length⟩, rfl, writable,
    ⟨read.frontHolds, read.frontLength, count, ⟨stop, there, read.backHolds, rfl⟩,
      read.backLength⟩, rfl, rfl, rfl⟩

/-- The names are written from their texts as they are where each of them is. -/
theorem written_iff {names : List (List Text)} {f : Fields} (octets : f.names = octetsOf names)
    (writable : ∀ labels ∈ names, Writable labels)
    (all : ∀ s ∈ names.map dotted, ∃ w, wireName s = some w) :
    f.front ++ ((octetsOf ((names.map dotted).map labelsOf)).flatMap wire ++ f.back) = f.plain ↔
      ∀ labels ∈ f.names, Plain labels := by
  have plain : (∀ labels ∈ f.names, Plain labels) ↔
      (names.map dotted).map labelsOf = names := by
    rw [octets, octetsOf, List.forall_mem_map, List.map_map]
    conv_rhs => rw [← List.map_id names, List.map_map, List.map_inj_left]
    refine forall₂_congr fun labels member => ?_
    rw [plain_iff (writable labels member), and_iff_left (all _ (List.mem_map_of_mem member))]
    rfl
  rw [plain]
  constructor
  · intro same
    have tails := List.append_cancel_left same
    rw [octets] at tails
    have sized : ∀ labels ∈ octetsOf ((names.map dotted).map labelsOf),
        ∀ l ∈ labels, 0 < l.length ∧ l.length < 256 := by
      rw [octetsOf, List.forall_mem_map, List.forall_mem_map]
      intro s member
      obtain ⟨w, written⟩ := all s member
      exact (wireName_eq_some_iff.mp written).1.sized
    have sized' : ∀ labels ∈ octetsOf names, ∀ l ∈ labels, 0 < l.length ∧ l.length < 256 := by
      rw [octetsOf, List.forall_mem_map]
      exact fun labels member => (writable labels member).sized
    have names_ := flatMap_wire_inj sized sized' (by simp [octetsOf]) tails
    exact List.map_injective_iff.mpr (List.map_injective_iff.mpr utf8_injective) names_
  · intro same
    rw [same, ← octets]
    rfl

/-- The data that is handed over does not depend on the message where the fields end within the
record, at its end if there is no pointer, and the names are written from their texts as they
are; or where there is no pointer and a name is not written. -/
theorem expandNames_independent_iff {rtype : Nat} {layout : NameLayout} {out : List UInt8}
    (known : NameLayout.tryFrom rtype = some layout)
    (said : (expandNames msg rtype start stop).run = some (.ok out)) :
    (∃ f, Independent msg start stop layout out f) ↔ ∃ f, Fits msg start stop layout f := by
  unfold expandNames at said
  rw [known] at said
  obtain ⟨parsed, parsing, handed⟩ := bind_eq_ok said
  obtain ⟨front, texts, back, past, read⟩ := parseNames_read parsing
  obtain ⟨names, f, rfl, writable, laid, rfl, octets, rfl⟩ := fields_exist read
  cases written : (names.map dotted).mapM wireName with
  | some ws =>
      obtain ⟨all, flat⟩ := mapM_wireName written
      have vec := read.written
      rw [written, Option.map_some, flat] at vec
      rw [vec] at handed
      cases handed
      have iff_ := written_iff octets writable all
      constructor
      · rintro ⟨f', ind⟩
        obtain rfl := ind.laid.unique laid
        refine ⟨f', laid, ind.within, fun plain => ?_, .inl (iff_.mp ind.written)⟩
        have ends := (slice_holds (ind.same plain)).2
        rw [ind.written] at ends
        exact (laid.holds plain).2.trans ends
      · rintro ⟨f', fits⟩
        obtain rfl := fits.laid.unique laid
        have plains : ∀ labels ∈ f'.names, Plain labels := by
          refine fits.names.resolve_right ?_
          rintro ⟨-, labels, member, refused⟩
          rw [octets] at member
          obtain ⟨texts, there, rfl⟩ := List.mem_map.mp member
          obtain ⟨w, some_⟩ := all _ (List.mem_map_of_mem there)
          rw [(refused_iff texts).mp refused] at some_
          cases some_
        rw [iff_.mpr plains]
        refine ⟨f', laid, rfl, laid.readAgain, fun plain => ?_, fits.within⟩
        obtain ⟨holds, ends⟩ := laid.holds plain
        rw [← fits.whole plain, ends]
        exact holds_slice holds (plain_ne_nil laid)
  | none =>
      have vec := read.written
      rw [written, Option.map_none] at vec
      rw [vec] at handed
      have sliced := okOr_eq_ok handed
      obtain ⟨holds, ends⟩ := slice_holds sliced
      obtain ⟨s, member, refused⟩ := mapM_wireName_none written
      obtain ⟨labels, there, rfl⟩ := List.mem_map.mp member
      have here : labels.map Bytes.utf8 ∈ f.names := by
        rw [octets]
        exact List.mem_map_of_mem there
      constructor
      · rintro ⟨f', ind⟩
        obtain rfl := ind.laid.unique laid
        rw [ind.written] at holds ends
        have plain := laid.no_pointer holds
        exact ⟨f', laid, ind.within, fun _ => (laid.holds plain).2.trans ends,
          .inr ⟨plain, _, here, (refused_iff labels).mpr refused⟩⟩
      · rintro ⟨f', fits⟩
        obtain rfl := fits.laid.unique laid
        have plain : f'.jumps = 0 := by
          refine (fits.names.resolve_left fun plains => ?_).1
          obtain ⟨-, w, some_⟩ := (plain_iff (writable labels there)).mp (plains _ here)
          rw [refused] at some_
          cases some_
        obtain ⟨whole, last⟩ := laid.holds plain
        have length : out.length = f'.plain.length := by
          have := fits.whole plain
          omega
        obtain rfl := holds.unique whole length
        exact ⟨f', laid, rfl, laid.readAgain, fun _ => sliced, fits.within⟩

end

/-- A name that goes on at the name in front of the data. -/
theorem expandNames_independent_pointer :
    ∃ f, Independent [1, 97, 0, 1, 98, 192, 0] 3 7 .one [1, 98, 1, 97, 0] f := by
  have said : (expandNames [1, 97, 0, 1, 98, 192, 0] 2 3 7).run =
      some (.ok [1, 98, 1, 97, 0]) := by decide +kernel
  have name : Expands [1, 97, 0, 1, 98, 192, 0] 3 [[98], [97]] 1 :=
    .label rfl rfl (by decide) rfl (.pointer rfl rfl rfl
      (.label rfl rfl (by decide) rfl (.root rfl)))
  have past : Past [1, 97, 0, 1, 98, 192, 0] 3 7 :=
    .label rfl rfl (by decide) (.pointer rfl rfl)
  have laid : Laid [1, 97, 0, 1, 98, 192, 0] .one 3 ⟨[], [[[98], [97]]], [], 1, 7⟩ :=
    ⟨holds_nil _ _, rfl, rfl, ⟨7, .cons name past .nil, holds_nil _ _, rfl⟩, rfl⟩
  have plain : ∀ labels ∈ [[[98], [97]]], Plain labels := by
    simp [Plain, wire, maxWireNameLen]
  exact (expandNames_independent_iff rfl said).mpr
    ⟨_, laid, Nat.le_refl 7, fun none_ => absurd none_ (by decide), .inl plain⟩

/-- One answer of the root, of type `NS`, with data of so many octets. -/
def nsAnswer (rdlength : UInt8) (octets : List UInt8) : List UInt8 :=
  [0, 0, 128, 0, 0, 0, 0, 1, 0, 0, 0, 0] ++
    [0, 0, 2, 0, 1, 0, 0, 0, 0, 0, rdlength] ++ octets

/-- A name is read beyond the data it begins in, and an octet behind a name is lost. -/
theorem name_runs_past_its_record :
    (records (nsAnswer 1 [1, 97, 0])).run = some (.ok [⟨[], 2, 1, .fromSecs 0, [1, 97, 0]⟩]) ∧
      ¬ (∃ f, Independent (nsAnswer 1 [1, 97, 0]) 23 24 .one [1, 97, 0] f) ∧
      (records (nsAnswer 4 [1, 97, 0, 7])).run =
        some (.ok [⟨[], 2, 1, .fromSecs 0, [1, 97, 0]⟩]) ∧
      ¬ ∃ f, Independent (nsAnswer 4 [1, 97, 0, 7]) 23 27 .one [1, 97, 0] f := by
  have laid (rdlength : UInt8) (more : List UInt8) :
      Laid (nsAnswer rdlength ([1, 97, 0] ++ more)) .one 23 ⟨[], [[[97]]], [], 0, 26⟩ := by
    have letter : Holds (nsAnswer rdlength ([1, 97, 0] ++ more)) 24 [97] :=
      List.prefix_append [97] (0 :: more)
    have name : Expands (nsAnswer rdlength ([1, 97, 0] ++ more)) 23 [[97]] 0 :=
      .label rfl rfl (by decide) (holds_slice letter (List.cons_ne_nil _ _)) (.root rfl)
    have past : Past (nsAnswer rdlength ([1, 97, 0] ++ more)) 23 26 :=
      .label rfl rfl (by decide) (.root rfl)
    exact ⟨holds_nil _ _, rfl, rfl, ⟨26, .cons name past .nil, holds_nil _ _, rfl⟩, rfl⟩
  refine ⟨by decide +kernel, ?_, by decide +kernel, ?_⟩
  · rintro ⟨f, ind⟩
    have within := ind.within
    rw [ind.laid.unique (laid 1 [])] at within
    exact absurd within (by decide)
  · rintro ⟨f, ind⟩
    have same := ind.same
    rw [ind.laid.unique (laid 4 [7])] at same
    exact absurd (same rfl) (by decide +kernel)

end HClient.Dns
