import HClient.Dns.Message

/-!
# Truncated messages

Every read asks the message for what it takes, so that a walk always ends without a panic, and
what it says of a message it also says of every longer one, unless it said that the message is
truncated.
-/
namespace HClient.Dns

variable {α β : Type}

def Error.IsTruncation : Error → Prop
  | .malformed (.headerTruncated _) => True
  | .malformed .recordTruncated => True
  | _ => False

namespace Walk

theorem bind_ok {w : Walk α} {f : α → Walk β} {a : α} (said : w.run = some (.ok a)) :
    (w >>= f).run = (f a).run := by
  change ((w.run : Option (Except Error α)) >>= ExceptT.bindCont f) = _
  rw [said]
  rfl

theorem bind_error {w : Walk α} {f : α → Walk β} {e : Error} (said : w.run = some (.error e)) :
    (w >>= f).run = some (.error e) := by
  change ((w.run : Option (Except Error α)) >>= ExceptT.bindCont f) = _
  rw [said]
  rfl

theorem bind_none {w : Walk α} {f : α → Walk β} (said : w.run = none) : (w >>= f).run = none := by
  change ((w.run : Option (Except Error α)) >>= ExceptT.bindCont f) = _
  rw [said]
  rfl

/-- The walk ends without a panic, and what it finds is so. -/
def Finds (w : Walk α) (good : α → Prop) : Prop :=
  match w.run with
  | none => False
  | some (.error _) => True
  | some (.ok a) => good a

namespace Finds
variable {w : Walk α} {good : α → Prop}

theorem pure {a : α} (h : good a) : Finds (Pure.pure a : Walk α) good := h

theorem throw (e : Error) : Finds (MonadExcept.throw e : Walk α) good := trivial

theorem bind {f : α → Walk β} {fine : β → Prop} (first : Finds w good)
    (second : ∀ a, good a → Finds (f a) fine) : Finds (w >>= f) fine := by
  unfold Finds at first ⊢
  cases said : w.run with
  | none => rw [said] at first; exact first.elim
  | some r =>
      rw [said] at first
      cases r with
      | error e => rw [bind_error said]; trivial
      | ok a => rw [bind_ok said]; exact second a first

theorem okOr {a : Option α} {reason : MalformedAnswer} (h : ∀ b, a = some b → good b) :
    Finds (Walk.okOr a reason) good := by
  cases a with
  | none => trivial
  | some b => exact h b rfl

/-- What is asked of the message, whatever it is. -/
theorem asked {a : Option α} {reason : MalformedAnswer} :
    Finds (Walk.okOr a reason) fun _ => True := okOr fun _ _ => trivial

theorem index {bytes : List UInt8} {i : Nat} (inside : i < bytes.length) :
    Finds (Walk.index bytes i) fun _ => True := by
  unfold Finds Walk.index
  rw [List.getElem?_eq_getElem inside]
  trivial

theorem mapM {f : α → Walk β} {as : List α} (each : ∀ a ∈ as, Finds (f a) fun _ => True) :
    Finds (as.mapM f) fun _ => True := by
  induction as with
  | nil => trivial
  | cons a as ih =>
      rw [List.mapM_cons]
      refine bind (each a List.mem_cons_self) fun b _ => ?_
      exact bind (ih fun a member => each a (List.mem_cons_of_mem _ member)) fun bs _ => trivial

/-- A walk that finds something ends. -/
theorem ends (h : Finds w good) : w.run ≠ none := by
  intro none
  unfold Finds at h
  rw [none] at h
  exact h

end Finds

/-! ## Walks that more input does not change -/

/-- It does not end, it panics, or it says that the message is truncated. -/
def Short (w : Walk α) : Prop :=
  match w.run with
  | none => True
  | some (.error e) => e.IsTruncation
  | some (.ok _) => False

/-- More input changes no answer but that. -/
abbrev Keeps (f : List UInt8 → Walk α) : Prop := Settles Short f

namespace Keeps

theorem bind {f : List UInt8 → Walk α} {g : α → List UInt8 → Walk β} (first : Keeps f)
    (second : ∀ a, Keeps (g a)) : Keeps fun m => f m >>= fun a => g a m := by
  intro m more long
  cases said : (f m).run with
  | none =>
      refine absurd ?_ long
      unfold Short
      rw [bind_none said]
      trivial
  | some r =>
      have same : f (m ++ more) = f m := by
        refine first m more fun short => long ?_
        unfold Short at short ⊢
        cases r with
        | ok a => rw [said] at short; exact short.elim
        | error e => rw [said] at short; rw [bind_error said]; exact short
      cases r with
      | error e =>
          have failed : ∀ h : α → Walk β, (f m >>= h) = ExceptT.mk (some (.error e)) := fun h =>
            bind_error said
          simp only [same, failed]
      | ok a =>
          have done : ∀ h : α → Walk β, (f m >>= h) = h a := fun h => bind_ok said
          simp only [same, done] at long ⊢
          exact second a m more long

theorem ite {c : Prop} [Decidable c] {f g : List UInt8 → Walk α} (yes : Keeps f) (no : Keeps g) :
    Keeps fun m => if c then f m else g m := by
  by_cases h : c
  · simp only [if_pos h]
    exact yes
  · simp only [if_neg h]
    exact no

/-- What is missing is missed for truncation. -/
theorem okOr {f : List UInt8 → Option α} (settles : SettlesSome f)
    {reason : List UInt8 → MalformedAnswer}
    (truncation : ∀ m, Short (Walk.okOr (none : Option α) (reason m))) :
    Keeps fun m => Walk.okOr (f m) (reason m) := by
  intro m more long
  dsimp only at long ⊢
  cases said : f m with
  | none =>
      rw [said] at long
      exact absurd (truncation m) long
  | some a =>
      rw [settles.some_of said]
      rfl

end Keeps
end Walk

/-! ## Reads -/

open Walk

theorem slice_settles (start stop : Nat) : SettlesSome fun m => slice m start stop := by
  refine Settles.of_some fun m s said more => ?_
  unfold slice at said ⊢
  split at said
  next inside =>
    cases said
    rw [if_pos ⟨inside.1, inside.2.trans (by rw [List.length_append]; omega)⟩,
      List.drop_append_of_le_length (by omega),
      List.take_append_of_le_length (by rw [List.length_drop]; omega)]
  next => cases said

theorem length_slice {m s : List UInt8} {start stop : Nat} (said : slice m start stop = some s) :
    s.length = stop - start := by
  unfold slice at said
  split at said
  next inside =>
    cases said
    rw [List.length_take, List.length_drop]
    omega
  next => cases said

theorem slice_finds (m : List UInt8) (start stop : Nat) {reason : MalformedAnswer} :
    Finds (Walk.okOr (slice m start stop) reason)
      fun bytes => bytes.length = stop - start :=
  Finds.okOr fun _ said => length_slice said

theorem getElem_settles (i : Nat) : SettlesSome fun m : List UInt8 => m[i]? := by
  refine Settles.of_some fun m b said more => ?_
  rw [List.getElem?_append_left (List.getElem?_eq_some_iff.mp said).1, said]

theorem slice_keeps (start stop : Nat) :
    Keeps fun m => Walk.okOr (slice m start stop) .recordTruncated :=
  Keeps.okOr (slice_settles start stop) fun _ => trivial

theorem getElem_keeps (i : Nat) : Keeps fun m : List UInt8 => Walk.okOr m[i]? .recordTruncated :=
  Keeps.okOr (getElem_settles i) fun _ => trivial

/-! ## Skipping a name -/

theorem skipNameIn_finds {msg : List UInt8} {fuel start : Nat} (some_ : 0 < fuel)
    (enough : msg.length < fuel + start) : Finds (skipNameIn msg fuel start) fun _ => True := by
  induction fuel generalizing start with
  | zero => omega
  | succ fuel ih =>
      rw [skipNameIn]
      cases there : msg[start]? with
      | none => trivial
      | some len =>
          have inside := (List.getElem?_eq_some_iff.mp there).1
          dsimp only
          split
          · trivial
          · split
            · exact ih (by omega) (by omega)
            · split <;> trivial

/-- A name that has been skipped is skipped in a longer message too, with any more turns. -/
theorem skipNameIn_append {msg : List UInt8} {fuel start : Nat} {r : Except Error (Option Nat)}
    (skipped : (skipNameIn msg fuel start).run = some r) (inside : r ≠ .ok none)
    (more : List UInt8) {fuel' : Nat} (le : fuel ≤ fuel') :
    (skipNameIn (msg ++ more) fuel' start).run = some r := by
  induction fuel generalizing start fuel' with
  | zero => cases skipped
  | succ fuel ih =>
      obtain ⟨fuel', rfl⟩ := Nat.exists_eq_add_of_le' (Nat.lt_of_lt_of_le (Nat.succ_pos fuel) le)
      rw [skipNameIn] at skipped ⊢
      cases there : msg[start]? with
      | none => rw [there] at skipped; cases skipped; exact absurd rfl inside
      | some len =>
          rw [(getElem_settles start).some_of there]
          rw [there] at skipped
          dsimp only at skipped ⊢
          split
          next root => rw [if_pos root] at skipped; exact skipped
          next root =>
            rw [if_neg root] at skipped
            split
            next label => rw [if_pos label] at skipped; exact ih skipped (by omega)
            next label => rw [if_neg label] at skipped; exact skipped

theorem skipName_finds (msg : List UInt8) (start : Nat) :
    Finds (skipName msg start) fun _ => True :=
  skipNameIn_finds (Nat.succ_pos _) (by omega)

/-- Where a name ends, or the report that the message is truncated. -/
theorem skipName_keeps (start : Nat) :
    Keeps fun m => skipName m start >>= fun past => Walk.okOr past .recordTruncated := by
  intro msg more long
  dsimp only at long ⊢
  have ends := (skipName_finds msg start).ends
  cases said : (skipName msg start).run with
  | none => exact absurd said ends
  | some r =>
      by_cases outside : r = .ok none
      · subst outside
        refine absurd ?_ long
        unfold Short
        rw [bind_ok said]
        trivial
      · have enough : msg.length + 1 ≤ (msg ++ more).length + 1 := by
          rw [List.length_append]
          omega
        have later := skipNameIn_append said outside more enough
        have same : skipName (msg ++ more) start = skipName msg start := later.trans said.symm
        rw [same]

/-! ## Reading a name -/

theorem readTurn_keeps (r : Reading) : Keeps fun m => readTurn m r := by
  unfold readTurn
  refine Keeps.bind (getElem_keeps _) fun len => ?_
  refine Keeps.ite ?_ (Keeps.ite (Settles.const _) (Keeps.ite ?_ (Settles.const _)))
  · exact Keeps.bind (getElem_keeps _) fun second => Settles.const _
  · refine Keeps.ite (Settles.const _) (Keeps.bind (slice_keeps _ _) fun label => ?_)
    exact Settles.const _

theorem readNameIn_keeps (fuel : Nat) (r : Reading) : Keeps fun m => readNameIn m fuel r := by
  induction fuel generalizing r with
  | zero => exact Settles.const _
  | succ fuel ih =>
      unfold readNameIn
      refine Keeps.bind (readTurn_keeps r) fun turn => ?_
      cases turn with
      | inl name => exact Settles.const _
      | inr r => exact ih r

theorem readName_keeps (start : Nat) : Keeps fun m => readName m start :=
  readNameIn_keeps readFuel _

/-- What is left of the budgets of a name. -/
def Reading.left (r : Reading) : Nat := (maxJumps - r.jumps) + (maxWireNameLen - textLen r.name)

theorem textLen_append (s t : Text) : textLen (s ++ t) = textLen s + textLen t := by
  rw [textLen, Bytes.utf8_append, List.length_append, textLen, textLen]

/-- A name and a label behind it, with a dot in between where there is a name. -/
def joined (name label : Text) : Text := (if name = [] then name else name ++ ['.']) ++ label

theorem le_textLen_joined (name label : Text) :
    textLen name + textLen label ≤ textLen (joined name label) := by
  unfold joined
  split
  · rw [textLen_append]
  · rw [textLen_append, textLen_append]
    omega

/-- A turn ends the name or takes from the budgets. -/
theorem readTurn_finds (msg : List UInt8) (r : Reading) :
    Finds (readTurn msg r) fun turn => ∀ next, turn = .inr next → next.left < r.left := by
  unfold readTurn
  refine Finds.bind Finds.asked fun len _ => ?_
  split
  · refine Finds.bind Finds.asked fun second _ => ?_
    dsimp only
    split
    · exact Finds.throw _
    next jumps =>
      refine Finds.pure fun next same => ?_
      cases same
      unfold Reading.left maxJumps at *
      dsimp only
      omega
  split
  · exact Finds.pure nofun
  split
  next root label =>
    dsimp only
    split
    · exact Finds.throw _
    refine Finds.bind (slice_finds _ _ _) fun bytes length => ?_
    split
    · exact Finds.throw _
    next fits =>
      have decodes : Finds (Walk.okOr (Bytes.fromUtf8 bytes) .reservedLabel)
          fun text => textLen text = bytes.length :=
        Finds.okOr fun text decoded => by rw [textLen, ← Bytes.eq_utf8_of_fromUtf8 decoded]
      refine Finds.bind decodes fun text size => Finds.pure fun next same => ?_
      · cases same
        have some_ : 0 < len.toNat := by
          refine Nat.pos_of_ne_zero fun zero => root ⟨label, ?_⟩
          exact UInt8.toNat_inj.mp zero
        have longer := le_textLen_joined r.name text
        unfold Reading.left
        change maxJumps - r.jumps + (maxWireNameLen - textLen (joined r.name text)) < _
        omega
  · exact Finds.throw _

theorem readNameIn_finds (msg : List UInt8) {fuel : Nat} {r : Reading} (enough : r.left < fuel) :
    Finds (readNameIn msg fuel r) fun _ => True := by
  induction fuel generalizing r with
  | zero => omega
  | succ fuel ih =>
      unfold readNameIn
      refine Finds.bind (readTurn_finds msg r) fun turn less => ?_
      cases turn with
      | inl name => trivial
      | inr next => exact ih (by have := less next rfl; omega)

theorem readName_finds (msg : List UInt8) (start : Nat) :
    Finds (readName msg start) fun _ => True :=
  readNameIn_finds msg (Nat.lt_succ_self (maxJumps + maxWireNameLen))

/-! ## Record data -/

theorem number_finds {bytes : List UInt8} {width i : Nat} (inside : i + width ≤ bytes.length) :
    Finds (number bytes width i) fun _ => True := by
  refine Finds.bind (Finds.mapM fun k member => ?_) fun octets _ => trivial
  have := List.mem_range.mp member
  exact Finds.index (by omega)

theorem readPrefix_keeps (n cursor : Nat) : Keeps fun m => readPrefix m n cursor := by
  induction n generalizing cursor with
  | zero => exact Settles.const _
  | succ n ih =>
      unfold readPrefix
      refine Keeps.bind (slice_keeps _ _) fun pair => Keeps.bind (ih _) fun rest => ?_
      exact Settles.const _

theorem readPrefix_finds (msg : List UInt8) (n cursor : Nat) :
    Finds (readPrefix msg n cursor) fun r => r.1.length = 2 * n := by
  induction n generalizing cursor with
  | zero => exact Finds.pure rfl
  | succ n ih =>
      unfold readPrefix
      refine Finds.bind (slice_finds _ _ _) fun pair two => ?_
      refine Finds.bind (ih _) fun rest length => Finds.pure ?_
      rw [List.length_append, two, length]
      omega

theorem parseNames_keeps (layout : NameLayout) (start : Nat) :
    Keeps fun m => parseNames m layout start := by
  unfold parseNames
  refine Keeps.bind (readPrefix_keeps _ _) fun numbers => Keeps.bind (readName_keeps _) fun first => ?_
  cases layout with
  | one => exact Settles.const _
  | two => exact Keeps.bind (readName_keeps _) fun second => Settles.const _
  | u16ThenOne => exact Settles.const _
  | srv => exact Settles.const _
  | soa =>
      exact Keeps.bind (readName_keeps _) fun rname => Keeps.bind (slice_keeps _ _) fun counters =>
        Settles.const _

theorem parseNames_finds (msg : List UInt8) (layout : NameLayout) (start : Nat) :
    Finds (parseNames msg layout start) fun _ => True := by
  unfold parseNames
  refine Finds.bind (readPrefix_finds msg _ _) fun numbers length =>
    Finds.bind (readName_finds msg _) fun first _ => ?_
  cases layout with
  | one => trivial
  | two => exact Finds.bind (readName_finds msg _) fun second _ => trivial
  | u16ThenOne =>
      change numbers.1.length = 2 at length
      exact Finds.bind (number_finds (by omega)) fun _ _ => trivial
  | srv =>
      change numbers.1.length = 6 at length
      refine Finds.bind (number_finds (by omega)) fun _ _ => ?_
      refine Finds.bind (number_finds (by omega)) fun _ _ => ?_
      exact Finds.bind (number_finds (by omega)) fun _ _ => trivial
  | soa =>
      refine Finds.bind (readName_finds msg _) fun rname _ => ?_
      refine Finds.bind (slice_finds _ _ _) fun counters twenty => ?_
      refine Finds.bind (number_finds (by omega)) fun _ _ => ?_
      refine Finds.bind (number_finds (by omega)) fun _ _ => ?_
      refine Finds.bind (number_finds (by omega)) fun _ _ => ?_
      refine Finds.bind (number_finds (by omega)) fun _ _ => ?_
      exact Finds.bind (number_finds (by omega)) fun _ _ => trivial

theorem expandNames_keeps (rtype start stop : Nat) :
    Keeps fun m => expandNames m rtype start stop := by
  unfold expandNames
  cases NameLayout.tryFrom rtype with
  | none => exact slice_keeps start stop
  | some layout =>
      refine Keeps.bind (parseNames_keeps layout start) fun parsed => ?_
      cases parsed.toVec with
      | none => exact slice_keeps start stop
      | some bytes => exact Settles.const _

theorem expandNames_finds (msg : List UInt8) (rtype start stop : Nat) :
    Finds (expandNames msg rtype start stop) fun _ => True := by
  have verbatim : Finds (Walk.okOr (slice msg start stop) .recordTruncated) fun _ => True :=
    Finds.okOr fun _ _ => trivial
  unfold expandNames
  dsimp only
  cases NameLayout.tryFrom rtype with
  | none => exact verbatim
  | some layout =>
      refine Finds.bind (parseNames_finds msg layout start) fun parsed _ => ?_
      cases parsed.toVec with
      | none => exact verbatim
      | some bytes => trivial

/-! ## Records -/

theorem skipQuestions_keeps (n start : Nat) : Keeps fun m => skipQuestions m n start := by
  induction n generalizing start with
  | zero => exact Settles.const _
  | succ n ih =>
      have step : (fun m => skipQuestions m (n + 1) start) = fun m =>
          (skipName m start >>= fun past => Walk.okOr past .recordTruncated) >>= fun past =>
            skipQuestions m n (past + 4) := by
        funext m
        rw [skipQuestions, bind_assoc]
      rw [step]
      exact Keeps.bind (skipName_keeps start) fun past => ih (past + 4)

theorem skipQuestions_finds (msg : List UInt8) (n start : Nat) :
    Finds (skipQuestions msg n start) fun _ => True := by
  induction n generalizing start with
  | zero => trivial
  | succ n ih =>
      unfold skipQuestions
      refine Finds.bind (skipName_finds msg start) fun past _ => ?_
      exact Finds.bind Finds.asked fun past _ => ih _

theorem end_settles (start rdlength : Nat) : SettlesSome fun m : List UInt8 =>
    if start + rdlength ≤ m.length then some (start + rdlength) else none := by
  refine Settles.of_some fun m stop said more => ?_
  split at said
  next inside =>
    rw [if_pos (inside.trans (by rw [List.length_append]; omega))]
    exact said
  next => cases said

theorem readRecord_keeps (start : Nat) : Keeps fun m => readRecord m start := by
  unfold readRecord
  refine Keeps.bind (readName_keeps start) fun name => ?_
  refine Keeps.bind (slice_keeps _ _) fun fixed => ?_
  refine Keeps.bind (Settles.const _) fun rtype => ?_
  refine Keeps.bind (Settles.const _) fun class_ => ?_
  refine Keeps.bind (Settles.const _) fun ttl => ?_
  refine Keeps.bind (Settles.const _) fun rdlength => ?_
  refine Keeps.bind (Keeps.okOr (end_settles _ _) fun _ => trivial) fun stop => ?_
  exact Keeps.bind (expandNames_keeps _ _ _) fun rdata => Settles.const _

theorem readRecord_finds (msg : List UInt8) (start : Nat) :
    Finds (readRecord msg start) fun _ => True := by
  unfold readRecord
  refine Finds.bind (readName_finds msg start) fun name _ => ?_
  refine Finds.bind (slice_finds _ _ _) fun fixed ten => ?_
  refine Finds.bind (number_finds (by omega)) fun rtype _ => ?_
  refine Finds.bind (number_finds (by omega)) fun class_ _ => ?_
  refine Finds.bind (number_finds (by omega)) fun ttl _ => ?_
  refine Finds.bind (number_finds (by omega)) fun rdlength _ => ?_
  refine Finds.bind Finds.asked fun stop _ => ?_
  exact Finds.bind (expandNames_finds msg _ _ _) fun rdata _ => trivial

theorem readRecords_keeps (n start : Nat) : Keeps fun m => readRecords m n start := by
  induction n generalizing start with
  | zero => exact Settles.const _
  | succ n ih =>
      unfold readRecords
      refine Keeps.bind (readRecord_keeps start) fun record => Keeps.bind (ih _) fun found => ?_
      exact Settles.const _

theorem readRecords_finds (msg : List UInt8) (n start : Nat) :
    Finds (readRecords msg n start) fun _ => True := by
  induction n generalizing start with
  | zero => trivial
  | succ n ih =>
      unfold readRecords
      refine Finds.bind (readRecord_finds msg start) fun record _ => ?_
      exact Finds.bind (ih _) fun found _ => trivial

theorem tryFrom_keeps : Keeps Header.tryFrom := by
  unfold Header.tryFrom
  refine Keeps.bind (Keeps.okOr (slice_settles 0 headerLen) fun _ => trivial) fun head => ?_
  exact Settles.const _

theorem tryFrom_finds (msg : List UInt8) : Finds (Header.tryFrom msg) fun _ => True := by
  unfold Header.tryFrom
  refine Finds.bind (slice_finds _ _ _) fun head twelve => ?_
  change head.length = 12 at twelve
  iterate 6 refine Finds.bind (Finds.index (by omega)) fun _ _ => ?_
  trivial

theorem records_keeps : Keeps records := by
  unfold records
  refine Keeps.bind tryFrom_keeps fun header => ?_
  refine Keeps.ite (Settles.const _) (Keeps.ite (Settles.const _) (Keeps.ite (Settles.const _)
    (Keeps.ite (Settles.const _) ?_)))
  exact Keeps.bind (skipQuestions_keeps _ _) fun start => readRecords_keeps _ start

theorem records_finds (msg : List UInt8) : Finds (records msg) fun _ => True := by
  unfold records
  refine Finds.bind (tryFrom_finds msg) fun header _ => ?_
  iterate 4
    split
    · exact Finds.throw _
  exact Finds.bind (skipQuestions_finds msg _ _) fun start _ => readRecords_finds msg _ start

/-- The walk always ends and reads nothing outside the message, and unless it reports that the
message is truncated, a longer message is answered alike. -/
theorem records_append (msg : List UInt8) :
    (records msg).run ≠ none ∧
      ((∀ got, (records msg).run ≠ some (.error (.malformed (.headerTruncated got)))) →
        (records msg).run ≠ some (.error (.malformed .recordTruncated)) →
        ∀ more, records (msg ++ more) = records msg) := by
  have ends := (records_finds msg).ends
  refine ⟨ends, fun header record more => records_keeps msg more fun short => ?_⟩
  unfold Short at short
  cases said : (records msg).run with
  | none => exact ends said
  | some r =>
      rw [said] at short
      cases r with
      | ok found => exact short
      | error e =>
          match e, short with
          | .malformed (.headerTruncated got), _ => exact header got said
          | .malformed .recordTruncated, _ => exact record said

end HClient.Dns
