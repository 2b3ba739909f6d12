import HClient.Dns.Truncation
import HClient.Hsts.Store

/-!
# Names written out again

The expansion of a name in a message, label by label, against the text it is read as and the
labels that text is written as.
-/
namespace HClient.Dns

open Walk

/-! ## The name in the message -/

/-- The labels of the name at an offset, and through how many pointers. -/
inductive Expands (msg : List UInt8) : Nat → List (List UInt8) → Nat → Prop
  | root {start : Nat} (len : msg[start]? = some 0) : Expands msg start [] 0
  | label {start jumps : Nat} {len : UInt8} {label : List UInt8} {labels : List (List UInt8)}
      (here : msg[start]? = some len) (form : len &&& labelMask = 0) (some_ : len ≠ 0)
      (octets : slice msg (start + 1) (start + 1 + len.toNat) = some label)
      (rest : Expands msg (start + 1 + len.toNat) labels jumps) :
      Expands msg start (label :: labels) jumps
  | pointer {start jumps : Nat} {high low : UInt8} {labels : List (List UInt8)}
      (here : msg[start]? = some high) (form : high &&& labelMask = labelPointer)
      (next : msg[start + 1]? = some low)
      (rest : Expands msg (fromBe 0 [high &&& ~~~labelMask, low]) labels jumps) :
      Expands msg start labels (jumps + 1)

/-- The offset just past the name as it is written. -/
inductive Past (msg : List UInt8) : Nat → Nat → Prop
  | root {start : Nat} (len : msg[start]? = some 0) : Past msg start (start + 1)
  | label {start stop : Nat} {len : UInt8} (here : msg[start]? = some len)
      (form : len &&& labelMask = 0) (some_ : len ≠ 0)
      (rest : Past msg (start + 1 + len.toNat) stop) : Past msg start stop
  | pointer {start : Nat} {high : UInt8} (here : msg[start]? = some high)
      (form : high &&& labelMask = labelPointer) : Past msg start (start + 2)

/-- The uncompressed form. -/
def wire (labels : List (List UInt8)) : List UInt8 :=
  labels.flatMap (fun label => UInt8.ofNat label.length :: label) ++ [0]

/-- The text is written as the name it was read from, label by label. -/
def Faithful (msg : List UInt8) (start : Nat) (s : Text) (stop : Nat) : Prop :=
  ∃ labels jumps, Expands msg start labels jumps ∧ Past msg start stop ∧
    (wire labels).length ≤ 255 ∧ wireName s = some (wire labels)

theorem label_ne_pointer {len : UInt8} (form : len &&& labelMask = 0) :
    len &&& labelMask ≠ labelPointer := by
  rw [form]
  decide

/-- At most one name stands at an offset. -/
theorem Expands.unique {msg : List UInt8} {start jumps jumps' : Nat}
    {labels labels' : List (List UInt8)} (first : Expands msg start labels jumps)
    (second : Expands msg start labels' jumps') : labels = labels' ∧ jumps = jumps' := by
  induction first generalizing labels' jumps' with
  | root len =>
      cases second with
      | root => exact ⟨rfl, rfl⟩
      | label here form some_ _ _ => cases len.symm.trans here; exact absurd rfl some_
      | pointer here form _ _ => cases len.symm.trans here; cases form
  | label here form some_ octets rest ih =>
      cases second with
      | root len => cases here.symm.trans len; exact absurd rfl some_
      | label here' _ _ octets' rest' =>
          cases here.symm.trans here'
          cases octets.symm.trans octets'
          obtain ⟨rfl, rfl⟩ := ih rest'
          exact ⟨rfl, rfl⟩
      | pointer here' form' _ _ =>
          cases here.symm.trans here'
          exact absurd form' (label_ne_pointer form)
  | pointer here form next rest ih =>
      cases second with
      | root len => cases here.symm.trans len; cases form
      | label here' form' _ _ _ =>
          cases here.symm.trans here'
          exact absurd form (label_ne_pointer form')
      | pointer here' _ next' rest' =>
          cases here.symm.trans here'
          cases next.symm.trans next'
          obtain ⟨rfl, rfl⟩ := ih rest'
          exact ⟨rfl, rfl⟩

/-! ## What is read -/

theorem bind_eq_ok {α β : Type} {w : Walk α} {f : α → Walk β} {b : β}
    (said : (w >>= f).run = some (.ok b)) :
    ∃ a, w.run = some (.ok a) ∧ (f a).run = some (.ok b) := by
  cases run : w.run with
  | none => rw [bind_none run] at said; cases said
  | some r =>
      cases r with
      | error e => rw [bind_error run] at said; cases said
      | ok a => rw [bind_ok run] at said; exact ⟨a, rfl, said⟩

theorem okOr_eq_ok {α : Type} {a : Option α} {reason : MalformedAnswer} {b : α}
    (said : (Walk.okOr a reason).run = some (.ok b)) : a = some b := by
  cases a with
  | none => cases said
  | some a => cases said; rfl

/-- What a turn of the loop does where it goes well. -/
inductive Turned (msg : List UInt8) (r : Reading) : (Text × Nat) ⊕ Reading → Prop
  | root (len : msg[r.cursor]? = some 0) :
      Turned msg r (.inl (r.name, r.after.getD (r.cursor + 1)))
  | label {len : UInt8} {text : Text} (here : msg[r.cursor]? = some len)
      (form : len &&& labelMask = 0) (some_ : len ≠ 0)
      (octets : slice msg (r.cursor + 1) (r.cursor + 1 + len.toNat) = some (Bytes.utf8 text))
      (size : textLen text = len.toNat) (small : textLen text ≤ maxLabelLen)
      (fits : textLen r.name + textLen text + 2 ≤ maxWireNameLen) :
      Turned msg r (.inr ⟨joined r.name text, r.cursor + 1 + len.toNat, r.after, r.jumps⟩)
  | pointer {high low : UInt8} (here : msg[r.cursor]? = some high)
      (form : high &&& labelMask = labelPointer) (next : msg[r.cursor + 1]? = some low) :
      Turned msg r (.inr ⟨r.name, fromBe 0 [high &&& ~~~labelMask, low],
        some (r.after.getD (r.cursor + 2)), r.jumps + 1⟩)

theorem readTurn_turned {msg : List UInt8} {r : Reading} {turn : (Text × Nat) ⊕ Reading}
    (said : (readTurn msg r).run = some (.ok turn)) : Turned msg r turn := by
  unfold readTurn at said
  obtain ⟨len, here, said⟩ := bind_eq_ok said
  have here := okOr_eq_ok here
  split at said
  next form =>
    obtain ⟨low, next, said⟩ := bind_eq_ok said
    dsimp only at said
    split at said
    · cases said
    · cases said
      exact .pointer here form (okOr_eq_ok next)
  split at said
  next root =>
    cases said
    rw [root.2] at here
    exact .root here
  split at said
  next root form =>
    dsimp only at said
    split at said
    next => cases said
    next small =>
      obtain ⟨bytes, octets, said⟩ := bind_eq_ok said
      have octets := okOr_eq_ok octets
      split at said
      next => cases said
      next fits =>
        obtain ⟨text, decoded, said⟩ := bind_eq_ok said
        cases said
        have bytes_eq := Bytes.eq_utf8_of_fromUtf8 (okOr_eq_ok decoded)
        subst bytes_eq
        have size : textLen text = len.toNat := by
          rw [textLen, length_slice octets]
          omega
        exact .label here form (fun zero => root ⟨form, zero⟩) octets size (by omega) (by omega)
  next => cases said

/-- A name and labels behind it. -/
def extended (name : Text) (labels : List Text) : Text := labels.foldl joined name

theorem textLen_joined_le (name label : Text) :
    textLen (joined name label) ≤ textLen name + 1 + textLen label := by
  unfold joined
  split
  · rw [textLen_append]
    omega
  · rw [textLen_append, textLen_append]
    change textLen name + 1 + _ ≤ _
    omega

/-- What is read where a name is read. -/
structure Read (msg : List UInt8) (r : Reading) (s : Text) (stop : Nat) (labels : List Text)
    (jumps : Nat) : Prop where
  expands : Expands msg r.cursor (labels.map Bytes.utf8) jumps
  text : s = extended r.name labels
  stopped : ∀ after, r.after = some after → stop = after
  past : r.after = none → Past msg r.cursor stop
  sizes : ∀ label ∈ labels, label ≠ [] ∧ textLen label ≤ maxLabelLen
  fits : labels ≠ [] → textLen s + 1 ≤ maxWireNameLen

theorem readNameIn_read {msg : List UInt8} {fuel : Nat} {r : Reading} {s : Text} {stop : Nat}
    (said : (readNameIn msg fuel r).run = some (.ok (s, stop))) :
    ∃ labels jumps, Read msg r s stop labels jumps := by
  induction fuel generalizing r with
  | zero => cases said
  | succ fuel ih =>
      unfold readNameIn at said
      obtain ⟨turn, turned, said⟩ := bind_eq_ok said
      cases readTurn_turned turned with
      | root len =>
          cases said
          refine ⟨[], 0, .root len, rfl, fun after there => by rw [there]; rfl, fun none => ?_,
            fun _ member => absurd member List.not_mem_nil, fun some => absurd rfl some⟩
          rw [none]
          exact .root len
      | pointer here form next =>
          obtain ⟨labels, jumps, expands, text, stopped, past, sizes, fits⟩ := ih said
          refine ⟨labels, jumps + 1, .pointer here form next expands, text,
            fun after there => ?_, fun none => ?_, sizes, fits⟩
          · rw [stopped _ rfl, there]
            rfl
          · rw [stopped _ rfl, none]
            exact .pointer here form
      | @label len text here form some_ octets size small room =>
          obtain ⟨labels, jumps, expands, text', stopped, past, sizes, fits⟩ := ih said
          have nonempty : text ≠ [] := by
            rintro rfl
            exact some_ (UInt8.toNat_inj.mp size.symm)
          refine ⟨text :: labels, jumps, .label here form some_ octets expands, text', stopped,
            fun none => .label here form some_ (past none), fun label member => ?_, fun _ => ?_⟩
          · obtain rfl | member := List.mem_cons.mp member
            · exact ⟨nonempty, small⟩
            · exact sizes label member
          · cases labels with
            | nil =>
                have := textLen_joined_le r.name text
                rw [text']
                change textLen (joined r.name text) + 1 ≤ _
                omega
            | cons next labels => exact fits (List.cons_ne_nil _ _)

/-! ## What is written -/

theorem wire_cons (label : List UInt8) (labels : List (List UInt8)) :
    wire (label :: labels) = UInt8.ofNat label.length :: label ++ wire labels := by
  simp [wire]

/-- Every label says its length, so that the labels are read off the wire form, whatever stands
behind it. -/
theorem wire_append_inj {labels labels' : List (List UInt8)} {s s' : List UInt8}
    (sized : ∀ l ∈ labels, 0 < l.length ∧ l.length < 256)
    (sized' : ∀ l ∈ labels', 0 < l.length ∧ l.length < 256)
    (same : wire labels ++ s = wire labels' ++ s') : labels = labels' ∧ s = s' := by
  have head_ne : ∀ n : Nat, 0 < n → n < 256 → UInt8.ofNat n ≠ 0 := by
    intro n some_ small zero
    have := congrArg UInt8.toNat zero
    rw [UInt8.toNat_ofNat', Nat.mod_eq_of_lt small] at this
    change n = 0 at this
    omega
  induction labels generalizing labels' with
  | nil =>
      cases labels' with
      | nil => exact ⟨rfl, (List.cons.inj same).2⟩
      | cons label' labels' =>
          have := sized' label' List.mem_cons_self
          rw [wire_cons] at same
          exact absurd (List.cons.inj same).1.symm (head_ne _ this.1 this.2)
  | cons label labels ih =>
      have size := sized label List.mem_cons_self
      cases labels' with
      | nil =>
          rw [wire_cons] at same
          exact absurd (List.cons.inj same).1 (head_ne _ size.1 size.2)
      | cons label' labels' =>
          have size' := sized' label' List.mem_cons_self
          rw [wire_cons, wire_cons, List.append_assoc, List.append_assoc] at same
          obtain ⟨len, rest⟩ := List.cons_eq_cons.mp same
          change label ++ _ = label' ++ _ at rest
          have len := congrArg UInt8.toNat len
          rw [UInt8.toNat_ofNat', UInt8.toNat_ofNat', Nat.mod_eq_of_lt size.2,
            Nat.mod_eq_of_lt size'.2] at len
          obtain ⟨rfl, tail⟩ := List.append_inj rest len
          obtain ⟨rfl, rfl⟩ := ih (fun l member => sized l (List.mem_cons_of_mem _ member))
            (fun l member => sized' l (List.mem_cons_of_mem _ member)) tail
          exact ⟨rfl, rfl⟩

theorem wire_inj {labels labels' : List (List UInt8)}
    (sized : ∀ l ∈ labels, 0 < l.length ∧ l.length < 256)
    (sized' : ∀ l ∈ labels', 0 < l.length ∧ l.length < 256) (same : wire labels = wire labels') :
    labels = labels' :=
  (wire_append_inj sized sized' (congrArg (· ++ []) same)).1

theorem extended_from {name : Text} (nonempty : name ≠ []) (labels : List Text) :
    extended name labels = name ++ labels.flatMap fun l => '.' :: l := by
  induction labels generalizing name with
  | nil => simp [extended]
  | cons label labels ih =>
      have step : joined name label = name ++ '.' :: label := by simp [joined, nonempty]
      change extended (joined name label) labels = _
      rw [ih (by simp [step]), step]
      simp

theorem extended_eq_intercalate {labels : List Text} (nonempty : ∀ l ∈ labels, l ≠ []) :
    extended [] labels = ['.'].intercalate labels := by
  cases labels with
  | nil => rfl
  | cons first rest =>
      rw [Segments.intercalate_cons]
      exact extended_from (nonempty first List.mem_cons_self) rest

theorem length_wire (labels : List Text) :
    (wire (labels.map Bytes.utf8)).length =
      textLen (labels.flatMap fun l => '.' :: l) + 1 := by
  induction labels with
  | nil => rfl
  | cons label labels ih =>
      have dot : textLen ('.' :: label) = textLen label + 1 := by
        rw [← List.singleton_append, textLen_append, Nat.add_comm]
        rfl
      rw [List.map_cons, wire_cons, List.length_append, List.length_cons, ih, List.flatMap_cons,
        textLen_append, dot]
      unfold textLen
      omega

theorem length_wire_extended {labels : List Text} (some_ : labels ≠ [])
    (nonempty : ∀ l ∈ labels, l ≠ []) :
    (wire (labels.map Bytes.utf8)).length = textLen (extended [] labels) + 2 := by
  cases labels with
  | nil => exact absurd rfl some_
  | cons first rest =>
      have dot : textLen ('.' :: first) = textLen first + 1 := by
        rw [← List.singleton_append, textLen_append, Nat.add_comm]
        rfl
      change _ = textLen (extended first rest) + 2
      rw [length_wire, extended_from (nonempty first List.mem_cons_self), textLen_append,
        List.flatMap_cons, textLen_append, dot]
      omega

/-- The labels that `wire_name` finds in a text. -/
def labelsOf (s : Text) : List Text :=
  let name := (Text.stripSuffix ['.'] s).getD s
  if name = [] then [] else name.splitOn '.'

/-- Labels that `wire_name` writes. -/
def Writable (labels : List Text) : Prop :=
  ∀ l ∈ labels, l ≠ [] ∧ textLen l ≤ maxLabelLen

theorem wire_texts (labels : List Text) : wire (labels.map Bytes.utf8) =
    labels.flatMap (fun label => UInt8.ofNat (textLen label) :: Bytes.utf8 label) ++ [0] := by
  rw [wire, List.flatMap_map]
  rfl

theorem wireName_eq_some_iff {s : Text} {out : List UInt8} :
    wireName s = some out ↔ Writable (labelsOf s) ∧ out.length ≤ maxWireNameLen ∧
      out = wire ((labelsOf s).map Bytes.utf8) := by
  have writes : wireName s =
      if (labelsOf s).any fun label => label = [] ∨ maxLabelLen < textLen label then none
      else if (wire ((labelsOf s).map Bytes.utf8)).length ≤ maxWireNameLen then
        some (wire ((labelsOf s).map Bytes.utf8)) else none := by
    rw [wire_texts]
    rfl
  have writable : ((labelsOf s).any fun label => label = [] ∨ maxLabelLen < textLen label) = true ↔
      ¬ Writable (labelsOf s) := by
    simp only [List.any_eq_true, decide_eq_true_eq, Writable, not_forall, not_and_or, not_not,
      Nat.not_le, exists_prop]
  rw [writes]
  by_cases good : Writable (labelsOf s)
  case neg =>
    rw [if_pos (writable.mpr good)]
    exact ⟨nofun, fun h => absurd h.1 good⟩
  case pos =>
    rw [if_neg fun bad => writable.mp bad good]
    split
    next fits =>
      constructor
      · intro same
        cases same
        exact ⟨good, fits, rfl⟩
      · rintro ⟨-, -, rfl⟩
        rfl
    next long =>
      refine ⟨nofun, ?_⟩
      rintro ⟨-, fits, rfl⟩
      exact absurd fits long

theorem not_mem_labelsOf {s l : Text} (member : l ∈ labelsOf s) : '.' ∉ l := by
  unfold labelsOf at member
  dsimp only at member
  split at member
  · cases member
  · exact Segments.not_mem_of_splitOn member

/-- Labels that hold no dots are found again. -/
theorem labelsOf_intercalate {labels : List Text} (nonempty : ∀ l ∈ labels, l ≠ [])
    (plain : ∀ l ∈ labels, '.' ∉ l) : labelsOf (['.'].intercalate labels) = labels := by
  cases labels with
  | nil => rfl
  | cons first rest =>
      have split : (['.'].intercalate (first :: rest)).splitOn '.' = first :: rest :=
        List.splitOn_intercalate '.' plain (List.cons_ne_nil _ _)
      have whole : Text.stripSuffix ['.'] (['.'].intercalate (first :: rest)) = none := by
        refine if_neg fun ends => ?_
        obtain ⟨front, same⟩ := List.isSuffixOf_iff_suffix.mp ends
        rw [← same, List.splitOn_append_cons_self, List.splitOn_nil] at split
        refine nonempty [] ?_ rfl
        rw [← split]
        exact List.mem_append_right _ List.mem_cons_self
      have some_ : ['.'].intercalate (first :: rest) ≠ [] := by
        rw [Segments.intercalate_cons]
        exact List.append_ne_nil_of_left_ne_nil (nonempty first List.mem_cons_self) _
      unfold labelsOf
      simp only [whole, Option.getD_none, if_neg some_, split]

theorem Writable.sized {labels : List Text} (writable : Writable labels) :
    ∀ l ∈ labels.map Bytes.utf8, 0 < l.length ∧ l.length < 256 := by
  intro l member
  obtain ⟨text, there, rfl⟩ := List.mem_map.mp member
  obtain ⟨nonempty, small⟩ := writable text there
  have some_ := List.length_pos_iff.mpr (Bytes.utf8_ne_nil nonempty)
  have : maxLabelLen = 63 := rfl
  unfold textLen at small
  omega

theorem dot_mem_utf8 (text : Text) : 0x2E ∈ Bytes.utf8 text ↔ '.' ∈ text := by
  rw [Bytes.mem_utf8 (by decide)]
  constructor
  · rintro ⟨c, there, code⟩
    have dot : c = '.' := Char.toNat_inj.mp code
    exact dot ▸ there
  · exact fun there => ⟨'.', there, rfl⟩

/-- A name is written as it was read where no label holds a dot and the form fits, and nowhere
else: its length is counted without the dots between the labels. -/
theorem readName_faithful_iff {msg : List UInt8} {start : Nat} {s : Text} {stop : Nat}
    (read : (readName msg start).run = some (.ok (s, stop))) :
    Faithful msg start s stop ↔ ∀ labels jumps, Expands msg start labels jumps →
      (∀ l ∈ labels, 0x2E ∉ l) ∧ (wire labels).length ≠ maxWireNameLen + 1 := by
  obtain ⟨labels, jumps, name⟩ := readNameIn_read read
  have expands : Expands msg start (labels.map Bytes.utf8) jumps := name.expands
  have writable : Writable labels := name.sizes
  have nonempty : ∀ l ∈ labels, l ≠ [] := fun l member => (writable l member).1
  have text : s = ['.'].intercalate labels := name.text.trans (extended_eq_intercalate nonempty)
  have dots : (∀ l ∈ labels.map Bytes.utf8, 0x2E ∉ l) ↔ ∀ l ∈ labels, '.' ∉ l := by
    rw [List.forall_mem_map]
    simp only [dot_mem_utf8]
  have bound : (wire (labels.map Bytes.utf8)).length ≤ maxWireNameLen + 1 := by
    by_cases some_ : labels = []
    · subst some_
      decide
    · have fits := name.fits some_
      rw [length_wire_extended some_ nonempty, ← name.text]
      omega
  constructor
  · rintro ⟨labels', jumps', expands', -, fits, written⟩ labels'' jumps'' expands''
    obtain ⟨rfl, -⟩ := expands'.unique expands
    obtain ⟨rfl, -⟩ := expands''.unique expands
    obtain ⟨found, -, same⟩ := wireName_eq_some_iff.mp written
    refine ⟨?_, Nat.ne_of_lt (Nat.lt_succ_of_le fits)⟩
    rw [wire_inj writable.sized found.sized same, List.forall_mem_map]
    intro l member
    rw [dot_mem_utf8]
    exact not_mem_labelsOf member
  · intro faithful
    obtain ⟨plain, fits⟩ := faithful _ _ expands
    have fits : (wire (labels.map Bytes.utf8)).length ≤ maxWireNameLen := by omega
    refine ⟨_, jumps, expands, name.past rfl, fits, wireName_eq_some_iff.mpr ?_⟩
    rw [text, labelsOf_intercalate nonempty (dots.mp plain)]
    exact ⟨writable, fits, rfl⟩

/-- The name `www.hi`, its last label behind a pointer. -/
theorem readName_faithful_www :
    Faithful [2, 104, 105, 0, 3, 119, 119, 119, 0xC0, 0] 4 "www.hi".toList 10 := by
  have read : (readName [2, 104, 105, 0, 3, 119, 119, 119, 0xC0, 0] 4).run =
      some (.ok ("www.hi".toList, 10)) := by decide +kernel
  refine (readName_faithful_iff read).mpr fun labels jumps expands => ?_
  have hi : Expands [2, 104, 105, 0, 3, 119, 119, 119, 0xC0, 0] 0 [[104, 105]] 0 :=
    .label rfl rfl (by decide) rfl (.root rfl)
  have www : Expands [2, 104, 105, 0, 3, 119, 119, 119, 0xC0, 0] 4
      [[119, 119, 119], [104, 105]] 1 :=
    .label rfl rfl (by decide) rfl (.pointer rfl rfl rfl hi)
  obtain ⟨rfl, -⟩ := expands.unique www
  decide

/-- Four labels whose dots are what takes the name to 256 octets. -/
def fourLabels : List UInt8 :=
  [63, 63, 63, 62].flatMap (fun n => UInt8.ofNat n :: List.replicate n 97) ++ [0]

/-- A label that holds a dot is read as two, and a name of 256 octets is read. -/
theorem dotted_label_is_split_long_name_is_read :
    (readName [3, 97, 46, 98, 0] 0).run = some (.ok ("a.b".toList, 5)) ∧
      wireName "a.b".toList = some [1, 97, 1, 98, 0] ∧
      ¬ Faithful [3, 97, 46, 98, 0] 0 "a.b".toList 5 ∧
      ∃ s, (readName fourLabels 0).run = some (.ok (s, 256)) ∧ wireName s = none ∧
        ¬ Faithful fourLabels 0 s 256 := by
  have unwritten : ∀ (msg : List UInt8) (s : Text) (stop : Nat), wireName s = none →
      ¬ Faithful msg 0 s stop := by
    rintro msg s stop none ⟨labels, jumps, -, -, -, written⟩
    rw [none] at written
    cases written
  refine ⟨by decide +kernel, by decide +kernel, ?_, ?_⟩
  · rintro ⟨labels, jumps, expands, -, -, written⟩
    have dotted : Expands [3, 97, 46, 98, 0] 0 [[97, 46, 98]] 0 :=
      .label rfl rfl (by decide) rfl (.root rfl)
    obtain ⟨rfl, -⟩ := expands.unique dotted
    exact absurd written (by decide +kernel)
  · have read : (readName fourLabels 0).run =
        some (.ok (['.'].intercalate ([63, 63, 63, 62].map fun n => List.replicate n 'a'), 256)) := by
      decide +kernel
    have refused : wireName
        (['.'].intercalate ([63, 63, 63, 62].map fun n => List.replicate n 'a')) = none := by
      decide +kernel
    exact ⟨_, read, refused, unwritten _ _ _ refused⟩

end HClient.Dns
